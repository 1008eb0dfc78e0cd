import BoruixKernel.Mm.Mapper

/-!
# The invariant of the page-table mapper

The four levels of tables under a P4 are a trie in memory (`PointerTrie`), read with
`tableFormat`.  A translation depends on the leaves of the trie alone
(`translate_eq_leaves`), so the effect of an operation is stated on leaves: creating
or freeing a table changes none of them.

`MapperInv` says that the tables are separate and held from the allocator, and what
the use counters are.  A counter is set up when a table is created, on the new table
itself, and is changed afterwards by leaf entries only: it is one more than the
number of leaves.  So a counter of a table never returns to zero, and a table that
has a counter is never freed.
-/

namespace BoruixKernel

open PointerTrie Function Option PageTableEntry PageTableFlags List

/-! ## Tables as a trie -/

/-- How a translation reads an entry at a given depth, the P4 at depth 0. -/
def tableFormat : Format PhysAddr PageTableEntry where
  child
    | 0, e => if e.present then some e.addr else none
    | 1, e => if e.present && !e.huge then some e.addr else none
    | 2, e => if e.present && !e.huge then some e.addr else none
    | _, _ => none
  leaf
    | 1, e => e.present && e.huge
    | 2, e => e.present && e.huge
    | 3, e => e.present
    | _, _ => false

/-- The table at a path of indices. -/
abbrev tableOf (T : PhysAddr → PageTable) (p4 : PhysAddr) (q : List (Fin 512)) :
    Option PhysAddr :=
  tableAt tableFormat T p4 q

/-- The leaf entry at a path and an index. -/
abbrev leafOf (T : PhysAddr → PageTable) (p4 : PhysAddr) (q : List (Fin 512)) (i : Fin 512) :
    Option PageTableEntry :=
  leafAt tableFormat T p4 q i

theorem tableOf_snoc (T : PhysAddr → PageTable) (p4 : PhysAddr) (q : List (Fin 512))
    (i : Fin 512) : tableOf T p4 (q ++ [i]) =
      (tableOf T p4 q).bind fun t => tableFormat.child q.length (T t i) :=
  tableAt_snoc tableFormat T p4 q i

theorem child_eq_none {e : PageTableEntry} (h : e.present = false) (d : Nat) :
    tableFormat.child d e = none := by
  unfold tableFormat
  rcases d with _ | _ | _ | d <;> simp [h]

theorem leaf_eq_false {e : PageTableEntry} (h : e.present = false) (d : Nat) :
    tableFormat.leaf d e = false := by
  unfold tableFormat
  rcases d with _ | _ | _ | _ | d <;> simp [h]

variable {d : Nat} {T : PhysAddr → PageTable} {v : VirtAddr}

variable {σ : Type} {A : FrameAllocator σ} {p4 t c : PhysAddr} {s : MmState σ} {q : List (Fin 512)}
  {i : Fin 512} {e : PageTableEntry}

theorem child_of_leaf (h : tableFormat.leaf d e = true) : tableFormat.child d e = none := by
  unfold tableFormat at *
  rcases d with _ | _ | _ | _ | d <;> simp_all

theorem leaf_of_child (h : tableFormat.child d e = some c) : tableFormat.leaf d e = false := by
  by_contra hl
  rw [child_of_leaf (by simpa using hl)] at h
  cases h

theorem of_child (h : tableFormat.child d e = some c) : e.present = true ∧ e.addr = c := by
  cases hp : e.present with
  | false =>
    rw [child_eq_none hp] at h
    cases h
  | true =>
    refine ⟨rfl, ?_⟩
    unfold tableFormat at h
    rcases d with _ | _ | _ | d <;> simp [hp] at h
    · exact h
    · exact h.2
    · exact h.2

/-- An entry that is not huge points to a table at the first three depths. -/
theorem child_of_present (hp : e.present = true) (hh : e.huge = false) (hd : d < 3) :
    tableFormat.child d e = some e.addr := by
  unfold tableFormat
  rcases d with _ | _ | _ | d <;> simp [hp, hh]
  omega

theorem tableOf_frame (hp4 : p4.Frame) (h : tableOf T p4 q = some t) : t.Frame := by
  induction q using List.reverseRecOn with
  | nil =>
    cases h
    exact hp4
  | append_singleton q i _ =>
    rw [tableOf_snoc] at h
    obtain ⟨u, -, hc⟩ := bind_eq_some_iff.mp h
    rw [← (of_child hc).2]
    exact addr_frame _

/-! ## Page sizes -/

inductive PageLevel where
  | small
  | large
  | giant
deriving DecidableEq, Repr

namespace PageLevel

/-- The number of offset bits: a page of 4 KiB, 2 MiB or 1 GiB. -/
def bits : PageLevel → Nat
  | small => 12
  | large => 21
  | giant => 30

def size (l : PageLevel) : Nat := 2 ^ l.bits

/-- The path to the table that maps pages of this size. -/
def path : PageLevel → VirtAddr → List (Fin 512)
  | small, v => [v.p4Index, v.p3Index, v.p2Index]
  | large, v => [v.p4Index, v.p3Index]
  | giant, v => [v.p4Index]

/-- The index in that table. -/
def index : PageLevel → VirtAddr → Fin 512
  | small, v => v.p1Index
  | large, v => v.p2Index
  | giant, v => v.p3Index

/-- The offset of an address in its page. -/
def offset (l : PageLevel) (v : VirtAddr) : UInt64 :=
  match l with
  | small => v.asU64 &&& 0xfff
  | large => v.asU64 &&& 0x1fffff
  | giant => v.asU64 &&& 0x3fffffff

end PageLevel

/-- The leaf that maps an address with a page of the given size. -/
abbrev pageLeaf (T : PhysAddr → PageTable) (p4 : PhysAddr) (l : PageLevel) (v : VirtAddr) :
    Option PageTableEntry :=
  leafOf T p4 (l.path v) (l.index v)

theorem leafOf_eq_some : leafOf T p4 q i = some e ↔
      ∃ t, tableOf T p4 q = some t ∧ T t i = e ∧ tableFormat.leaf q.length e = true := by
  simp only [leafOf, leafAt, filter_eq_some_iff, map_eq_some_iff]
  constructor
  · rintro ⟨⟨t, ht, he⟩, hl⟩
    exact ⟨t, ht, he, hl⟩
  · rintro ⟨t, ht, he, hl⟩
    exact ⟨⟨t, ht, he⟩, hl⟩

/-- No table stands under a leaf. -/
theorem tableOf_under_leaf (h : leafOf T p4 q i = some e) (r : List (Fin 512)) :
    tableOf T p4 (q ++ [i] ++ r) = none := by
  obtain ⟨t, ht, rfl, hl⟩ := leafOf_eq_some.mp h
  apply tableAt_eq_none_of_append
  rw [← tableOf, tableOf_snoc, ht, bind_some, child_of_leaf hl]

variable {l : PageLevel} {total : Nat} {H : Set PhysAddr}

/-- An address is mapped by pages of one size only. -/
theorem pageLeaf_unique (h : pageLeaf T p4 l v = some e)
    (h' : pageLeaf T p4 l' v = some e') : l = l' := by
  have hno : ∀ {k k' : PageLevel} {f f' : PageTableEntry} (r : List (Fin 512)),
      pageLeaf T p4 k v = some f → pageLeaf T p4 k' v = some f' →
      k'.path v ≠ k.path v ++ [k.index v] ++ r := by
    intro k k' f f' r hk hk' heq
    obtain ⟨t, ht, -⟩ := leafOf_eq_some.mp hk'
    rw [heq, tableOf_under_leaf hk r] at ht
    cases ht
  cases l <;> cases l'
  · rfl
  · exact absurd rfl (hno [] h' h)
  · exact absurd rfl (hno [v.p2Index] h' h)
  · exact absurd rfl (hno [] h h')
  · rfl
  · exact absurd rfl (hno [] h' h)
  · exact absurd rfl (hno [v.p2Index] h h')
  · exact absurd rfl (hno [] h h')
  · rfl

/-- The translation through one page. -/
def PageLevel.apply (l : PageLevel) (v : VirtAddr) (e : PageTableEntry) : PhysAddr :=
  ⟨e.addr.asU64 + l.offset v⟩

/-- A translation reads the leaves of an address and nothing else. -/
theorem translate_eq_leaves (T : PhysAddr → PageTable) (p4 : PhysAddr) (v : VirtAddr) :
    OffsetMapper.translate T p4 v =
      (((pageLeaf T p4 .giant v).map (PageLevel.giant.apply v)).or
        ((pageLeaf T p4 .large v).map (PageLevel.large.apply v))).or
        ((pageLeaf T p4 .small v).map (PageLevel.small.apply v)) := by
  simp only [OffsetMapper.translate, pageLeaf, leafOf, leafAt, PageLevel.path, PageLevel.index,
    tableAt, descend, tableFormat, length_cons, length_nil, Nat.zero_add, Nat.reduceAdd]
  cases h4 : (T p4 v.p4Index).present with
  | false => simp
  | true =>
    cases h3 : (T (T p4 v.p4Index).addr v.p3Index).present with
    | false => simp [filter_some, h3]
    | true =>
      cases hh3 : (T (T p4 v.p4Index).addr v.p3Index).huge with
      | true => simp [filter_some, h3, hh3, PageLevel.apply, PageLevel.offset]
      | false =>
        cases h2 : (T (T (T p4 v.p4Index).addr v.p3Index).addr v.p2Index).present with
        | false => simp [filter_some, h3, hh3, h2]
        | true =>
          cases hh2 : (T (T (T p4 v.p4Index).addr v.p3Index).addr v.p2Index).huge with
          | true => simp [filter_some, h3, hh3, h2, hh2, PageLevel.apply, PageLevel.offset]
          | false =>
            cases h1 : (T (T (T (T p4 v.p4Index).addr v.p3Index).addr v.p2Index).addr
                v.p1Index).present <;>
              simp [filter_some, h3, hh3, h2, hh2, h1, PageLevel.apply, PageLevel.offset]

/-- States with the same leaves translate alike. -/
theorem translate_congr (h : ∀ q i, leafOf T' p4 q i = leafOf T p4 q i)
    (v : VirtAddr) : OffsetMapper.translate T' p4 v = OffsetMapper.translate T p4 v := by
  rw [translate_eq_leaves, translate_eq_leaves]
  simp [pageLeaf, h]

/-- The translation of an address with a leaf. -/
theorem translate_of_pageLeaf (h : pageLeaf T p4 l v = some e) :
    OffsetMapper.translate T p4 v = some (l.apply v e) := by
  have hother : ∀ l' ≠ l, pageLeaf T p4 l' v = none := by
    intro l' hne
    cases h' : pageLeaf T p4 l' v with
    | none => rfl
    | some e' => exact absurd (pageLeaf_unique h' h) hne
  rw [translate_eq_leaves]
  cases l with
  | small => rw [h, hother .large (by decide), hother .giant (by decide)]; rfl
  | large => rw [h, hother .giant (by decide)]; rfl
  | giant => rw [h]; rfl

/-- An address without a leaf does not translate. -/
theorem translate_eq_none (h : ∀ l, pageLeaf T p4 l v = none) :
    OffsetMapper.translate T p4 v = none := by
  rw [translate_eq_leaves, h, h, h]
  rfl

/-! ## Counters -/

/-- The number of leaves of a table at depth `d`. -/
def leafCount (d : Nat) (t : PageTable) : Nat :=
  (Finset.univ.filter fun i => tableFormat.leaf d (t i) = true).card

theorem leafCount_le (d : Nat) (t : PageTable) : leafCount d t ≤ 512 := by
  have := Finset.card_filter_le (Finset.univ : Finset (Fin 512))
    fun i => tableFormat.leaf d (t i) = true
  rwa [Finset.card_univ, Fintype.card_fin] at this

/-- A new leaf raises the count by one. -/
theorem leafCount_set {t : PageTable} (hold : tableFormat.leaf d (t i) = false)
    (hnew : tableFormat.leaf d e = true) : leafCount d (update t i e) = leafCount d t + 1 := by
  unfold leafCount
  rw [← Finset.card_insert_of_notMem (a := i) (by simp [hold])]
  apply congrArg Finset.card
  ext j
  by_cases hj : j = i
  · subst hj
    simp [hnew]
  · simp [hj]

/-- A store that neither adds nor removes a leaf keeps the count. -/
theorem leafCount_keep {t : PageTable} (h : tableFormat.leaf d e = tableFormat.leaf d (t i)) :
    leafCount d (update t i e) = leafCount d t := by
  apply congrArg Finset.card
  ext j
  by_cases hj : j = i
  · subst hj
    simp [h]
  · simp [hj]

theorem leafCount_zero (d : Nat) : leafCount d PageTable.zero = 0 := by
  simp [leafCount, PageTable.zero, leaf_eq_false new_present d]

/-- Frames with the same number are the same. -/
theorem PhysAddr.Frame.pfn_inj {a b : PhysAddr} (ha : a.Frame) (hb : b.Frame)
    (h : a.pfn = b.pfn) : a = b := by
  ext1
  apply UInt64.toNat_inj.mp
  have h1 := ha.1
  have h2 := hb.1
  simp only [PhysAddr.pfn] at h
  omega

/-- The counters under a P4, when they are set up; `H` are the frames in use. -/
structure CountsOk (total : Nat) (p4 : PhysAddr) (T : PhysAddr → PageTable) (H : Set PhysAddr)
    (c : PageTableCountTable) : Prop where
  len : c.len = total
  /-- Every table below the P4 has a counter, one above its number of leaves. -/
  table : ∀ q t, q ≠ [] → tableOf T p4 q = some t →
    t.pfn < c.len ∧ (c.base t.pfn).toNat = leafCount q.length (T t) + 1
  /-- The P4 counts zero. -/
  root : c.base p4.pfn = 0
  /-- Frames that are not in use count zero. -/
  free : ∀ f : PhysAddr, f.Frame → f ∉ H → c.base f.pfn = 0

structure MapperInv {σ : Type} (A : FrameAllocator σ) (p4 : PhysAddr) (s : MmState σ) : Prop where
  root : p4.Frame
  separate : Separate tableFormat s.tables p4
  /-- Every table is held. -/
  held : ∀ q t, tableOf s.tables p4 q = some t → t ∈ A.held s.alloc
  counts : ∀ c, s.counts = some c → CountsOk A.totalFrames p4 s.tables (A.held s.alloc) c

/-! ## What the stores keep -/

theorem length_ne_zero_of_leaf (h : tableFormat.leaf q.length e = true) : q ≠ [] := by
  rintro rfl
  simp [tableFormat] at h

/-- Counters after a store in table `t` that adds `d` to its number of leaves. -/
theorem CountsOk.bump {T T' : PhysAddr → PageTable} {c : PageTableCountTable} {d : UInt16}
    (hp4 : p4.Frame) (hs : Separate tableFormat T p4) (h : CountsOk total p4 T H c) (hne : q ≠ [])
    (hq : tableOf T p4 q = some t) (ht : t ∈ H) (htab : ∀ q', tableOf T' p4 q' = tableOf T p4 q')
    (hsame : ∀ u ≠ t, T' u = T u) (hd : (c.base t.pfn + d).toNat = leafCount q.length (T' t) + 1) :
    ∀ c', bumpTableCount (some c) t d = some c' → CountsOk total p4 T' H c' := by
  intro c' hc'
  obtain ⟨hlt, -⟩ := h.table q t hne hq
  rw [bumpTableCount_of_lt hlt] at hc'
  cases hc'
  have hframe := tableOf_frame hp4 hq
  have hoff : ∀ u : PhysAddr, u.Frame → u ≠ t →
      update c.base t.pfn (c.base t.pfn + d) u.pfn = c.base u.pfn := fun u hu hut =>
    update_of_ne (fun heq => hut (hu.pfn_inj hframe heq)) _ _
  refine ⟨h.len, fun q' u hne' hu => ?_, ?_, fun f hf hfH => ?_⟩
  · rw [htab] at hu
    obtain ⟨hult, hucount⟩ := h.table q' u hne' hu
    refine ⟨hult, ?_⟩
    by_cases hut : u = t
    · subst hut
      obtain rfl := hs _ _ _ hu hq
      simp [hd]
    · simp [hoff u (tableOf_frame hp4 hu) hut, hsame u hut, hucount]
  · rw [← h.root]
    refine hoff p4 hp4 ?_
    rintro rfl
    exact hne (hs _ _ _ hq rfl)
  · rw [← h.free f hf hfH]
    refine hoff f hf ?_
    rintro rfl
    exact hfH ht

/-- Counters after a fresh zeroed table `f` was hung into the trie. -/
theorem CountsOk.grow {c : PageTableCountTable} (hp4 : p4.Frame) (h : CountsOk total p4 T H c)
    (hf : f.Frame) (hlt : f.pfn < total) (hfH : f ∉ H)
    (hheld : ∀ q t, tableOf T p4 q = some t → t ∈ H)
    (htab : ∀ q, tableOf T' p4 q = if q = r then some f else tableOf T p4 q)
    (hzero : T' f = PageTable.zero) (hkeep : ∀ q u, tableOf T p4 q = some u →
      leafCount q.length (T' u) = leafCount q.length (T u)) :
    ∀ c', bumpTableCount (some c) f 1 = some c' → CountsOk total p4 T' (insert f H) c' := by
  intro c' hc'
  rw [bumpTableCount_of_lt (h.len ▸ hlt)] at hc'
  cases hc'
  have hoff : ∀ u : PhysAddr, u.Frame → u ≠ f →
      update c.base f.pfn (c.base f.pfn + 1) u.pfn = c.base u.pfn := fun u hu huf =>
    update_of_ne (fun heq => huf (hu.pfn_inj hf heq)) _ _
  refine ⟨h.len, fun q u hne hu => ?_, ?_, fun g hg hgH => ?_⟩
  · rw [htab] at hu
    split at hu
    next =>
      cases hu
      refine ⟨h.len ▸ hlt, ?_⟩
      simp only [update_self, h.free f hf hfH, hzero, leafCount_zero]
      decide
    next =>
      obtain ⟨hult, hucount⟩ := h.table q u hne hu
      refine ⟨hult, ?_⟩
      simp [hoff u (tableOf_frame hp4 hu) fun heq => hfH (heq ▸ hheld q u hu), hucount, hkeep q u hu]
  · rw [← h.root]
    exact hoff p4 hp4 fun heq => hfH (heq ▸ hheld [] p4 rfl)
  · rw [Set.mem_insert_iff, not_or] at hgH
    rw [← h.free g hg hgH.2]
    exact hoff g hg hgH.1

/-- A store that changes leaves only, with the counter of its table adjusted. -/
theorem MapperInv.storeLeaf (h : MapperInv A p4 s) (hne : q ≠ []) (hq : tableOf s.tables p4 q = some t)
    {d : UInt16} (hold : tableFormat.child q.length (s.tables t i) = none)
    (hnew : tableFormat.child q.length e = none)
    (hd : ∀ n : UInt16, n.toNat = leafCount q.length (s.tables t) + 1 →
      (n + d).toNat = leafCount q.length (update (s.tables t) i e) + 1) :
    MapperInv A p4 { s.setEntry t i e with counts := bumpTableCount s.counts t d } := by
  have htab := tableAt_setLeaf (e := e) h.separate hq hold hnew
  have hrow : (PointerTrie.set s.tables t i e) t = update (s.tables t) i e := by
    simp [PointerTrie.set]
  refine ⟨h.root, h.separate.of_tableAt_imp fun q' u hu => (htab q').symm.trans hu,
    fun q' u hu => h.held q' u ((htab q').symm.trans hu), fun c hc => ?_⟩
  · simp only at hc
    cases hcs : s.counts with
    | none =>
      rw [hcs] at hc
      cases hc
    | some c0 =>
      rw [hcs] at hc
      have hok := h.counts c0 hcs
      refine hok.bump h.root h.separate hne hq (h.held q t hq) htab (fun u hu => ?_) ?_ c hc
      · exact update_of_ne hu _ _
      · rw [hrow]
        exact hd _ (hok.table q t hne hq).2

/-- Writing a leaf into an entry that is not present. -/
theorem MapperInv.addLeaf (h : MapperInv A p4 s) (hq : tableOf s.tables p4 q = some t)
    (hold : (s.tables t i).present = false) (hnew : tableFormat.leaf q.length e = true) :
    MapperInv A p4 ((s.setEntry t i e).incCount t) := by
  refine h.storeLeaf (length_ne_zero_of_leaf hnew) hq (child_eq_none hold _) (child_of_leaf hnew)
    fun n hn => ?_
  rw [leafCount_set (leaf_eq_false hold _) hnew, UInt16.toNat_add, hn]
  have := leafCount_le q.length (s.tables t)
  simp only [UInt16.reduceToNat]
  omega

theorem MapperInv.clearLeaf (h : MapperInv A p4 s) (hq : tableOf s.tables p4 q = some t)
    (hold : tableFormat.leaf q.length (s.tables t i) = true) :
    MapperInv A p4 ((s.setEntry t i .new).decCount t) := by
  refine h.storeLeaf (length_ne_zero_of_leaf hold) hq (child_of_leaf hold)
    (child_eq_none new_present _) fun n hn => ?_
  -- Putting the old leaf back would raise the count again.
  have hback := leafCount_set (t := update (s.tables t) i .new) (i := i)
    (e := s.tables t i) (by simp [leaf_eq_false]) hold
  rw [update_idem, update_eq_self] at hback
  rw [UInt16.toNat_add, hn, hback]
  have := leafCount_le q.length (s.tables t)
  have hneg : (-1 : UInt16).toNat = 65535 := by decide
  rw [hneg]
  omega

/-- The flags of an entry that points to a table. -/
abbrev linkFlags : PageTableFlags := .PRESENT ||| .WRITABLE ||| .USER_ACCESSIBLE

theorem child_link (hc : c.Frame) (hd : d < 3) :
    tableFormat.child d (.pack c linkFlags) = some c := by
  have hp : (PageTableEntry.pack c linkFlags).present = true := by
    rw [PageTableEntry.present, flags_pack hc]
    decide
  have hh : (PageTableEntry.pack c linkFlags).huge = false := by
    rw [PageTableEntry.huge, flags_pack hc]
    decide
  rw [child_of_present hp hh hd, addr_pack hc]

/-- Hanging a fresh, zeroed table under an entry that is not present. -/
theorem MapperInv.grow (h : MapperInv A p4 s) (hq : tableOf s.tables p4 q = some t)
    (hlen : q.length < 3) (hold : (s.tables t i).present = false)
    (halloc : A.allocateFrame s.alloc = (some c, a)) :
    let s' := ((({ s with alloc := a } : MmState σ).zeroFrame c).setEntry t i
      (.pack c linkFlags)).incCount c
    MapperInv A p4 s' ∧ (∀ q' j, leafOf s'.tables p4 q' j = leafOf s.tables p4 q' j) ∧
      ∀ q', tableOf s'.tables p4 q' = if q' = q ++ [i] then some c else tableOf s.tables p4 q' := by
  intro s'
  obtain ⟨hcf, hclt, hcnew, hheld⟩ := A.allocate_some halloc
  have hfresh : ∀ q', tableOf s.tables p4 q' ≠ some c := fun q' hq' => hcnew (h.held q' c hq')
  have hct : c ≠ t := by
    rintro rfl
    exact hfresh q hq
  -- Zeroing the fresh frame first, then linking it.
  let T0 := update s.tables c PageTable.zero
  have htab0 : ∀ q', tableOf T0 p4 q' = tableOf s.tables p4 q' := tableAt_update _ hfresh
  have hsep0 : Separate tableFormat T0 p4 :=
    h.separate.of_tableAt_imp fun q' u hu => (htab0 q').symm.trans hu
  have hq0 : tableOf T0 p4 q = some t := (htab0 q).trans hq
  have hfresh0 : ∀ q', tableOf T0 p4 q' ≠ some c := fun q' hq' => hfresh q' ((htab0 q').symm.trans hq')
  have hold0 : (T0 t i).present = false := by
    simp [T0, update_of_ne hct.symm, hold]
  have hblank : ∀ j, (T0 c j).present = false := by
    intro j
    simp [T0, update_self, PageTable.zero, new_present]
  have hlink := child_link hcf hlen
  have htab : ∀ q', tableOf s'.tables p4 q' =
      if q' = q ++ [i] then some c else tableOf s.tables p4 q' := by
    intro q'
    rw [← htab0]
    exact tableAt_grow hsep0 hq0 (child_eq_none hold0 _) hlink hfresh0
      (fun j => child_eq_none (hblank j) _) q'
  refine ⟨⟨h.root, h.separate.of_tableAt_add hfresh htab, fun q' u hu => ?_, fun k hk => ?_⟩,
    fun q' j => ?_, htab⟩
  · rw [htab] at hu
    change u ∈ A.held a
    rw [hheld]
    split at hu
    next =>
      cases hu
      exact Set.mem_insert _ _
    next => exact Set.mem_insert_of_mem _ (h.held q' u hu)
  · change bumpTableCount s.counts c 1 = some k at hk
    cases hcs : s.counts with
    | none =>
      rw [hcs] at hk
      cases hk
    | some c0 =>
      rw [hcs] at hk
      have hrow : ∀ u ≠ t, s'.tables u = T0 u := fun u hu => update_of_ne hu _ _
      change CountsOk A.totalFrames p4 s'.tables (A.held a) k
      rw [hheld]
      refine (h.counts c0 hcs).grow h.root hcf hclt hcnew h.held htab ?_ ?_ k hk
      · rw [hrow c hct]
        exact update_self _ _ _
      · intro q' u hu
        have huc : u ≠ c := by
          rintro rfl
          exact hfresh q' hu
        by_cases hut : u = t
        · subst hut
          obtain rfl := h.separate _ _ _ hu hq
          have hrowt : s'.tables u = update (s.tables u) i (.pack c linkFlags) := by
            change PointerTrie.set T0 u i _ u = _
            simp [PointerTrie.set, update_self, T0, update_of_ne huc]
          rw [hrowt, leafCount_keep]
          rw [leaf_of_child hlink, leaf_eq_false hold]
        · rw [hrow u hut]
          simp [T0, update_of_ne huc]
  · refine Eq.trans ?_ (leafAt_update PageTable.zero hfresh q' j)
    exact leafAt_grow hsep0 hq0 (child_eq_none hold0 _) hlink hfresh0
      (fun j => child_eq_none (hblank j) _) (leaf_eq_false hold0 _) (leaf_of_child hlink)
      (fun j => leaf_eq_false (hblank j) _) q' j

/-- Cutting off a table without a present entry, when there are no counters. -/
theorem MapperInv.prune (h : MapperInv A p4 s) (hnone : s.counts = none)
    (hq : tableOf s.tables p4 q = some t)
    (hold : tableFormat.child q.length (s.tables t i) = some c)
    (hc : ∀ j, (s.tables c j).present = false) :
    let s' := (({ s with alloc := A.deallocateFrame s.alloc c } : MmState σ).setEntry t i
      .new).decCount t
    MapperInv A p4 s' ∧ (∀ q' j, leafOf s'.tables p4 q' j = leafOf s.tables p4 q' j) ∧
      ∀ q', tableOf s'.tables p4 q' = if q' = q ++ [i] then none else tableOf s.tables p4 q' := by
  intro s'
  have hnew := child_eq_none new_present q.length
  have htab : ∀ q', tableOf s'.tables p4 q' =
      if q' = q ++ [i] then none else tableOf s.tables p4 q' :=
    tableAt_prune h.separate hq hold hnew fun j => child_eq_none (hc j) _
  have hqi : tableOf s.tables p4 (q ++ [i]) = some c := by
    rw [tableOf_snoc, hq, bind_some, hold]
  refine ⟨⟨h.root, h.separate.of_tableAt_imp fun q' u hu => ?_, fun q' u hu => ?_, ?_⟩,
    leafAt_prune h.separate hq hold hnew (fun j => child_eq_none (hc j) _) (leaf_of_child hold)
      (leaf_eq_false new_present _) fun j => leaf_eq_false (hc j) _, htab⟩
  · have hu' := (htab q').symm.trans hu
    split at hu'
    next => cases hu'
    next => exact hu'
  · rw [htab] at hu
    split at hu
    next => cases hu
    next hne =>
      change u ∈ A.held (A.deallocateFrame s.alloc c)
      rw [A.deallocate]
      refine ⟨h.held q' u hu, ?_⟩
      rintro rfl
      exact hne (h.separate _ _ _ hu hqi)
  · intro k hk
    change decTableCount s.counts t = some k at hk
    rw [hnone] at hk
    cases hk

/-! ## What the operations keep -/

/-- The counter of a frame number, if the counters are set up. -/
def MmState.countOf {σ : Type} (s : MmState σ) (n : Nat) : Option UInt16 :=
  s.counts.map fun c => c.base n

/-- A frame that is in use, and not as a table under the P4. -/
def Outside {σ : Type} (A : FrameAllocator σ) (p4 : PhysAddr) (s : MmState σ) (f : PhysAddr) :
    Prop :=
  f.Frame ∧ f ∈ A.held s.alloc ∧ ∀ q, tableOf s.tables p4 q ≠ some f

/-- A step that works on the tables under one P4: frames in use elsewhere are left alone,
and new tables are fresh. -/
structure LocalStep {σ : Type} (A : FrameAllocator σ) (p4 : PhysAddr) (s s' : MmState σ) :
    Prop where
  outside : ∀ f, Outside A p4 s f → s'.tables f = s.tables f ∧ f ∈ A.held s'.alloc ∧
    s'.countOf f.pfn = s.countOf f.pfn
  fresh : ∀ q t, tableOf s'.tables p4 q = some t →
    (∃ q', tableOf s.tables p4 q' = some t) ∨ t ∉ A.held s.alloc

/-- A step that keeps the invariant and changes no leaf. -/
structure QuietStep {σ : Type} (A : FrameAllocator σ) (p4 : PhysAddr) (s s' : MmState σ) : Prop
    extends LocalStep A p4 s s' where
  inv : MapperInv A p4 s'
  leaves : ∀ q j, leafOf s'.tables p4 q j = leafOf s.tables p4 q j
  offset : s'.physOffset = s.physOffset
  rmap : s'.rmap = s.rmap

/-- A quiet step that removes no table. -/
structure GrowStep {σ : Type} (A : FrameAllocator σ) (p4 : PhysAddr) (s s' : MmState σ) : Prop
    extends QuietStep A p4 s s' where
  kept : ∀ q t, tableOf s.tables p4 q = some t → tableOf s'.tables p4 q = some t

section Operations

variable {s' : MmState σ} {a : σ} {frame : PhysAddr} {f flags : PageTableFlags} {page : VirtAddr}

/-- Counting a table leaves the counters of other frames alone. -/
theorem countOf_bump (ht : t.Frame) {f : PhysAddr} (hf : f.Frame) (hne : f ≠ t)
    (d : UInt16) (s' : MmState σ) (hcounts : s'.counts = bumpTableCount s.counts t d) :
    s'.countOf f.pfn = s.countOf f.pfn := by
  unfold MmState.countOf
  rw [hcounts, bumpTableCount]
  cases s.counts with
  | none => rfl
  | some c =>
    simp only [map_some, Option.some.injEq]
    split
    · exact update_of_ne (fun hpfn => hne (hf.pfn_inj ht hpfn)) _ _
    · rfl

theorem LocalStep.refl : LocalStep A p4 s s :=
  ⟨fun _ h => ⟨rfl, h.2.1, rfl⟩, fun q _ h => .inl ⟨q, h⟩⟩

theorem LocalStep.still (h : LocalStep A p4 s s') {f : PhysAddr} (hf : Outside A p4 s f) :
    Outside A p4 s' f := by
  refine ⟨hf.1, (h.outside f hf).2.1, fun q hq => ?_⟩
  rcases h.fresh q f hq with ⟨q', hq'⟩ | hnot
  · exact hf.2.2 q' hq'
  · exact hnot hf.2.1

theorem LocalStep.trans (hp4 : p4.Frame) (h1 : LocalStep A p4 s₁ s₂) (h2 : LocalStep A p4 s₂ s₃) :
    LocalStep A p4 s₁ s₃ where
  outside f hf := by
    obtain ⟨htab1, -, hcount1⟩ := h1.outside f hf
    obtain ⟨htab2, hheld2, hcount2⟩ := h2.outside f (h1.still hf)
    exact ⟨htab2.trans htab1, hheld2, hcount2.trans hcount1⟩
  fresh q t ht := by
    by_contra hno
    rw [not_or, not_not] at hno
    have hout : Outside A p4 s₁ t :=
      ⟨tableOf_frame hp4 ht, hno.2, fun q' hq' => hno.1 ⟨q', hq'⟩⟩
    rcases h2.fresh q t ht with ⟨q', hq'⟩ | hnot
    · exact (h1.still hout).2.2 q' hq'
    · exact hnot (h1.outside t hout).2.1

/-- A store to a table under the P4, with the counter of that table adjusted. -/
theorem MapperInv.localStore (h : MapperInv A p4 s) (hq : tableOf s.tables p4 q = some t)
    (e : PageTableEntry) (d : UInt16)
    (htab : ∀ q', tableOf (s.setEntry t i e).tables p4 q' = tableOf s.tables p4 q') :
    LocalStep A p4 s { s.setEntry t i e with counts := bumpTableCount s.counts t d } where
  outside f hf := by
    have hne : f ≠ t := by
      rintro rfl
      exact hf.2.2 q hq
    exact ⟨update_of_ne hne _ _, hf.2.1,
      countOf_bump (tableOf_frame h.root hq) hf.1 hne d _ rfl⟩
  fresh q' u hu := .inl ⟨q', (htab q').symm.trans hu⟩

theorem QuietStep.refl (h : MapperInv A p4 s) : QuietStep A p4 s s :=
  ⟨.refl, h, fun _ _ => rfl, rfl, rfl⟩

theorem QuietStep.trans (h1 : QuietStep A p4 s₁ s₂) (h2 : QuietStep A p4 s₂ s₃) :
    QuietStep A p4 s₁ s₃ :=
  ⟨h1.toLocalStep.trans h1.inv.root h2.toLocalStep, h2.inv,
    fun q j => (h2.leaves q j).trans (h1.leaves q j), h2.offset.trans h1.offset,
    h2.rmap.trans h1.rmap⟩

theorem GrowStep.refl (h : MapperInv A p4 s) : GrowStep A p4 s s := ⟨.refl h, fun _ _ => id⟩

theorem GrowStep.trans (h1 : GrowStep A p4 s₁ s₂) (h2 : GrowStep A p4 s₂ s₃) :
    GrowStep A p4 s₁ s₃ :=
  ⟨h1.toQuietStep.trans h2.toQuietStep, fun q t ht => h2.kept q t (h1.kept q t ht)⟩

/-- More frames may be handed out. -/
theorem MapperInv.mono_alloc (h : MapperInv A p4 s) (ha : A.held s.alloc ⊆ A.held a) :
    MapperInv A p4 { s with alloc := a } :=
  ⟨h.root, h.separate, fun q t ht => ha (h.held q t ht), fun c hc =>
    have hok := h.counts c hc
    ⟨hok.len, hok.table, hok.root, fun f hf hfH => hok.free f hf fun hmem => hfH (ha hmem)⟩⟩

theorem LocalStep.grow (hq : tableOf s.tables p4 q = some t)
    (halloc : A.allocateFrame s.alloc = (some c, a)) {r : List (Fin 512)}
    (htab : ∀ q', tableOf (((({ s with alloc := a } : MmState σ).zeroFrame c).setEntry t i
      (.pack c linkFlags)).incCount c).tables p4 q' =
        if q' = r then some c else tableOf s.tables p4 q') :
    LocalStep A p4 s (((({ s with alloc := a } : MmState σ).zeroFrame c).setEntry t i
      (.pack c linkFlags)).incCount c) := by
  obtain ⟨hcf, -, hcnew, hheld⟩ := A.allocate_some halloc
  refine ⟨fun f hf => ?_, fun q' u hu => ?_⟩
  · have hfc : f ≠ c := by
      rintro rfl
      exact hcnew hf.2.1
    have hft : f ≠ t := by
      rintro rfl
      exact hf.2.2 q hq
    refine ⟨?_, ?_, countOf_bump hcf hf.1 hfc 1 _ rfl⟩
    · exact (update_of_ne hft _ _).trans (update_of_ne hfc _ _)
    · exact hheld ▸ Set.mem_insert_of_mem _ hf.2.1
  · rw [htab] at hu
    split at hu
    next =>
      cases hu
      exact .inr hcnew
    next => exact .inl ⟨q', hu⟩

theorem MapperInv.moreAlloc (h : MapperInv A p4 s) (ha : A.held s.alloc ⊆ A.held a) :
    QuietStep A p4 s { s with alloc := a } :=
  ⟨⟨fun _ hf => ⟨rfl, ha hf.2.1, rfl⟩, fun q _ ht => .inl ⟨q, ht⟩⟩, h.mono_alloc ha,
    fun _ _ => rfl, rfl, rfl⟩

/-- The next table is where its path says, and getting it changes no leaf. -/
theorem getNextTableByIndex_spec (h : MapperInv A p4 s) (hq : tableOf s.tables p4 q = some t)
    (hlen : q.length < 3) (hrun : getNextTableByIndex A t i s = (r, s')) :
    GrowStep A p4 s s' ∧ ∀ c, r = .ok c → tableOf s'.tables p4 (q ++ [i]) = some c := by
  unfold getNextTableByIndex at hrun
  simp only at hrun
  split at hrun
  next hp =>
    split at hrun
    next =>
      cases hrun
      exact ⟨.refl h, fun c hc => by cases hc⟩
    next hh =>
      cases hrun
      refine ⟨.refl h, fun c hc => ?_⟩
      cases hc
      rw [tableOf_snoc, hq, bind_some, child_of_present hp (by simpa using hh) hlen]
  next hp =>
    split at hrun
    next a halloc =>
      cases hrun
      refine ⟨⟨h.moreAlloc ?_, fun _ _ => id⟩, fun c hc => by cases hc⟩
      rw [A.allocate_none halloc]
    next phys a halloc =>
      obtain ⟨hframe, -, -, hheld⟩ := A.allocate_some halloc
      split at hrun
      next =>
        cases hrun
        refine ⟨⟨h.moreAlloc ?_, fun _ _ => id⟩, fun c hc => by cases hc⟩
        rw [hheld]
        exact Set.subset_insert _ _
      next =>
        simp only [MmState.setAddr, hframe.isAligned, if_true, MapResult.andThen] at hrun
        cases hrun
        obtain ⟨hinv, hleaves, htab⟩ := h.grow hq hlen (by simpa using hp) halloc
        refine ⟨⟨⟨.grow hq halloc htab, hinv, hleaves, rfl, rfl⟩, fun q' u hu => ?_⟩,
          fun c hc => ?_⟩
        · rw [htab, if_neg, hu]
          rintro rfl
          rw [tableOf_snoc, hq, bind_some, child_eq_none (by simpa using hp)] at hu
          cases hu
        · cases hc
          rw [htab, if_pos rfl]

/-! ## Mapping -/

/-- The page size a call selects. -/
def selectLevel (page : VirtAddr) (frame : PhysAddr) (flags : PageTableFlags) : PageLevel :=
  if flags.contains .HUGE_PAGE then
    if page.isAligned 0x40000000 && frame.isAligned 0x40000000 then .giant else .large
  else .small

theorem selectLevel_small (hhuge : flags.contains .HUGE_PAGE = false) :
    selectLevel page frame flags = .small := by
  simp [selectLevel, hhuge]

/-- The flags a leaf is stored with. -/
def PageLevel.leafFlags (l : PageLevel) (flags : PageTableFlags) : PageTableFlags :=
  if l = .small then flags ||| .PRESENT else flags ||| .PRESENT ||| .HUGE_PAGE

/-- What `map_page` records: user pages of 4 KiB. -/
def PageLevel.record (l : PageLevel) (m : Rmap) (frame p4 : PhysAddr) (page : VirtAddr)
    (flags : PageTableFlags) : Rmap :=
  if l = .small ∧ flags.contains .USER_ACCESSIBLE then rmapAdd m frame p4 page flags else m

variable (A) in
/-- The table at the end of a path, with the tables on the way. -/
def getTables : List (Fin 512) → PhysAddr → MmState σ → MapResult σ PhysAddr
  | [], t, s => (.ok t, s)
  | i :: q, t, s => (getNextTableByIndex A t i s).andThen (getTables q)

/-- What `map_page` does in the table of the page. -/
def storeLeaf (l : PageLevel) (p4 : PhysAddr) (page : VirtAddr) (frame : PhysAddr)
    (flags : PageTableFlags) (t : PhysAddr) (s : MmState σ) : MapResult σ Unit :=
  if !(s.tables t (l.index page)).isUnused then (.error (.err .PageAlreadyMapped), s)
  else if l == .large && (!page.isAligned 0x200000 || !frame.isAligned 0x200000) then
    (.error (.err .HugePageNotAligned), s)
  else
    (s.setAddr t (l.index page) frame (l.leafFlags flags)).andThen fun _ s =>
      (.ok (), { s.incCount t with rmap := l.record s.rmap frame p4 page flags })

theorem MapResult.andThen_assoc (r : MapResult σ α) (f : α → MmState σ → MapResult σ β)
    (g : β → MmState σ → MapResult σ γ) :
    (r.andThen f).andThen g = r.andThen fun a s => (f a s).andThen g := by
  rcases r with ⟨_ | a, s⟩ <;> rfl

/-- `map_page` gets the tables down to that of the page, one level after the other. -/
theorem mapPageInner_eq : mapPageInner A p4 page frame flags s =
    (getTables A ((selectLevel page frame flags).path page) p4 s).andThen
      (storeLeaf (selectLevel page frame flags) p4 page frame flags) := by
  cases hhuge : flags.contains .HUGE_PAGE with
  | true =>
    cases hgiant : page.isAligned 0x40000000 && frame.isAligned 0x40000000 with
    | true =>
      simp only [mapPageInner, selectLevel, hhuge, hgiant, Bool.and_self, if_true, PageLevel.path,
        getTables, MapResult.andThen_assoc]
      rfl
    | false =>
      simp only [mapPageInner, selectLevel, hhuge, hgiant, Bool.and_false, Bool.false_eq_true, if_true,
        if_false, PageLevel.path, getTables, MapResult.andThen_assoc]
      rfl
  | false =>
    have hrecord (s : MmState σ) : (if flags.contains .USER_ACCESSIBLE then
        (.ok (), { s with rmap := rmapAdd s.rmap frame p4 page flags }) else (.ok (), s) : MapResult σ Unit) =
          (.ok (), { s with rmap := PageLevel.small.record s.rmap frame p4 page flags }) := by
      simp only [PageLevel.record, true_and]
      split <;> rfl
    simp only [mapPageInner, selectLevel, hhuge, Bool.false_and, Bool.false_eq_true, if_false,
      PageLevel.path, getTables, MapResult.andThen_assoc, hrecord]
    rfl

/-- The tables are where the path says, and getting them changes no leaf. -/
theorem getTables_spec (h : MapperInv A p4 s) (hq : tableOf s.tables p4 q = some t)
    (hlen : q.length + p.length ≤ 3) (hrun : getTables A p t s = (r, s')) :
    GrowStep A p4 s s' ∧ ∀ c, r = .ok c → tableOf s'.tables p4 (q ++ p) = some c := by
  induction p generalizing q t s with
  | nil =>
    cases hrun
    refine ⟨.refl h, ?_⟩
    rintro _ ⟨⟩
    rwa [append_nil]
  | cons i p ih =>
    rw [length_cons] at hlen
    rw [getTables] at hrun
    rcases hnext : getNextTableByIndex A t i s with ⟨_ | c, s₁⟩ <;> rw [hnext] at hrun <;>
      obtain ⟨hstep, htab⟩ := getNextTableByIndex_spec h hq (by omega) hnext
    · cases hrun
      exact ⟨hstep, nofun⟩
    · have hlen' : (q ++ [i]).length + p.length ≤ 3 := by
        rw [length_append, length_singleton]
        omega
      obtain ⟨hrest, htabs⟩ := ih hstep.inv (htab c rfl) hlen' hrun
      rw [append_assoc] at htabs
      exact ⟨hstep.trans hrest, htabs⟩

theorem PageLevel.length_path (l : PageLevel) (v : VirtAddr) : (l.path v).length ≤ 3 := by
  cases l <;> simp [path]

theorem PageLevel.leaf_pack (l : PageLevel) (flags : PageTableFlags) (hf : frame.Frame) :
    tableFormat.leaf (l.path page).length (.pack frame (l.leafFlags flags)) = true := by
  have hpresent : ∀ f, (PageTableEntry.pack frame (flags ||| .PRESENT ||| f)).present = true := by
    intro f
    rw [PageTableEntry.present, flags_pack hf]
    exact contains_or_left
      (contains_or_right (contains_self _))
  cases l with
  | small =>
    change (PageTableEntry.pack frame (flags ||| .PRESENT)).present = true
    rw [PageTableEntry.present, flags_pack hf]
    exact contains_or_right (contains_self _)
  | large | giant =>
    refine (Bool.and_eq_true _ _).mpr ⟨hpresent _, ?_⟩
    rw [PageTableEntry.huge, flags_pack hf]
    exact contains_or_right (contains_self _)

/-- The state after a leaf was written at a path and an index. -/
structure LeafAdded (A : FrameAllocator σ) (p4 : PhysAddr) (q : List (Fin 512)) (i : Fin 512)
    (frame : PhysAddr) (f : PageTableFlags) (s s' : MmState σ) : Prop
    extends LocalStep A p4 s s' where
  inv : MapperInv A p4 s'
  framed : frame.Frame
  vacant : leafOf s.tables p4 q i = none
  leaves : ∀ q' j, leafOf s'.tables p4 q' j =
    if q' = q ∧ j = i then some (.pack frame f) else leafOf s.tables p4 q' j
  offset : s'.physOffset = s.physOffset
  kept : ∀ q' u, tableOf s.tables p4 q' = some u → tableOf s'.tables p4 q' = some u

theorem LeafAdded.after (h0 : GrowStep A p4 s0 s)
    (h : LeafAdded A p4 q i frame f s s') : LeafAdded A p4 q i frame f s0 s' := by
  refine ⟨h0.toLocalStep.trans h.inv.root h.toLocalStep, h.inv, h.framed,
    by rw [← h0.leaves, h.vacant], fun q' j => ?_, h.offset.trans h0.offset,
    fun q' u hu => h.kept q' u (h0.kept q' u hu)⟩
  rw [h.leaves, h0.leaves]

theorem not_present_of_isUnused (h : e.isUnused = true) : e.present = false := by
  cases hp : e.present with
  | false => rfl
  | true =>
    rw [isUnused_of_present hp] at h
    cases h

/-- Storing a packed leaf in an unused entry and counting it. -/
theorem MapperInv.leafAdded (h : MapperInv A p4 s) (hq : tableOf s.tables p4 q = some t)
    (hunused : (s.tables t i).isUnused = true) (hf : frame.Frame)
    (hleaf : tableFormat.leaf q.length (.pack frame f) = true) :
    LeafAdded A p4 q i frame f s ((s.setEntry t i (.pack frame f)).incCount t) := by
  have hold := not_present_of_isUnused hunused
  have htab := tableAt_setLeaf h.separate hq (child_eq_none hold _) (child_of_leaf hleaf)
  refine ⟨h.localStore hq _ 1 htab, h.addLeaf hq hold hleaf, hf, ?_, fun q' j => ?_, rfl,
    fun q' u hu => (htab q').trans hu⟩
  · rw [leafOf, leafAt, ← tableOf, hq, map_some, filter_some, leaf_eq_false hold]
    rfl
  · refine (leafAt_setLeaf h.separate hq (child_eq_none hold _) (child_of_leaf hleaf) q' j).trans ?_
    rw [filter_some, if_pos hleaf]

theorem MapperInv.with_rmap (h : MapperInv A p4 s) (m : Rmap) :
    MapperInv A p4 { s with rmap := m } := ⟨h.root, h.separate, h.held, h.counts⟩

theorem LeafAdded.with_rmap (h : LeafAdded A p4 q i frame f s s') (m : Rmap) :
    LeafAdded A p4 q i frame f s { s' with rmap := m } :=
  ⟨⟨h.outside, h.fresh⟩, h.inv.with_rmap m, h.framed, h.vacant, h.leaves, h.offset, h.kept⟩

theorem PhysAddr.frame_of_isAligned {p : PhysAddr} (ha : p.isAligned 4096 = true)
    (hlt : p.asU64.toNat < 2 ^ 52) : p.Frame := by
  refine ⟨?_, hlt⟩
  simpa [PhysAddr.isAligned, ← UInt64.toNat_inj] using ha

/-- The leaf is stored, counted and recorded, or nothing changes. -/
theorem storeLeaf_cases {r : Except MapFault Unit} (hlt : frame.asU64.toNat < 2 ^ 52)
    (hrun : storeLeaf l p4 page frame flags t s = (r, s')) :
    r = .ok () ∧ (s.tables t (l.index page)).isUnused = true ∧ frame.Frame ∧
        (l = .large → page.isAligned 0x200000 = true) ∧
        s' = { (s.setEntry t (l.index page) (.pack frame (l.leafFlags flags))).incCount t with
          rmap := l.record s.rmap frame p4 page flags } ∨
      (∃ e, r = .error e) ∧ s' = s := by
  unfold storeLeaf MmState.setAddr at hrun
  split at hrun
  · cases hrun
    exact .inr ⟨⟨_, rfl⟩, rfl⟩
  next hunused =>
  split at hrun
  · cases hrun
    exact .inr ⟨⟨_, rfl⟩, rfl⟩
  next haligned =>
  split at hrun
  next hframe =>
    cases hrun
    refine .inl ⟨rfl, by simpa using hunused, PhysAddr.frame_of_isAligned hframe hlt, ?_, rfl⟩
    rintro rfl
    simpa using (not_or.mp (mt Bool.or_eq_true_iff.mpr haligned)).1
  next =>
    cases hrun
    exact .inr ⟨⟨_, rfl⟩, rfl⟩

/-- `map_page` adds the leaf of the selected page, or changes no leaf. -/
theorem mapPageInner_spec (h : MapperInv A p4 s) (hlt : frame.asU64.toNat < 2 ^ 52)
    {r : Except MapFault Unit} (hrun : mapPageInner A p4 page frame flags s = (r, s')) :
    let l := selectLevel page frame flags
    (r = .ok () ∧ (l = .small ∨ page.asU64.toNat % l.size = 0) ∧
        LeafAdded A p4 (l.path page) (l.index page) frame (l.leafFlags flags) s s' ∧
        s'.rmap = l.record s.rmap frame p4 page flags) ∨
      (∃ e, r = .error e) ∧ GrowStep A p4 s s' := by
  intro l
  rw [mapPageInner_eq] at hrun
  rcases hget : getTables A (l.path page) p4 s with ⟨_ | t, s₁⟩ <;> rw [hget] at hrun <;>
    obtain ⟨hstep, htab⟩ := getTables_spec h (q := []) rfl (by simpa using l.length_path page) hget
  · cases hrun
    exact .inr ⟨⟨_, rfl⟩, hstep⟩
  rcases storeLeaf_cases hlt hrun with ⟨rfl, hunused, hframe, haligned, rfl⟩ | ⟨herr, rfl⟩
  · have hadd := hstep.inv.leafAdded (htab t rfl) hunused hframe (l.leaf_pack flags hframe)
    refine .inl ⟨rfl, ?_, .after hstep (hadd.with_rmap _), congrArg (l.record · ..) hstep.rmap⟩
    cases hl : l with
    | small => exact .inl rfl
    | large => exact .inr (VirtAddr.mod_of_isAligned (haligned hl))
    | giant =>
      simp only [l, selectLevel] at hl
      split_ifs at hl with hhuge hgiant
      exact .inr (VirtAddr.mod_of_isAligned (Bool.and_eq_true_iff.mp hgiant).1)
  · exact .inr ⟨herr, hstep⟩

/-! ## Unmapping -/

/-- A scan that counts zero saw no present entry. -/
theorem present_of_usedCount_eq_zero {t : PageTable} (h : t.usedCount = 0) (j : Fin 512) :
    (t j).present = false := by
  unfold PageTable.usedCount at h
  have hle := countP_le_length (l := List.finRange 512) (p := fun i => (t i).present)
  rw [length_finRange] at hle
  have hz : (List.finRange 512).countP (fun i => (t i).present) = 0 := by
    have h0 := congrArg UInt16.toNat h
    rw [UInt16.toNat_ofNat', UInt16.toNat_zero] at h0
    omega
  simpa using countP_eq_zero.mp hz j (mem_finRange j)

/-- A table below the P4 looks empty only when there are no counters, and then it is
empty. -/
theorem MapperInv.of_tableEmpty (h : MapperInv A p4 s) (hne : q ≠ [])
    (hq : tableOf s.tables p4 q = some t) (hempty : s.tableEmpty t = true) :
    s.counts = none ∧ ∀ j, (s.tables t j).present = false := by
  unfold MmState.tableEmpty at hempty
  cases hc : s.counts with
  | none =>
    simp only [hc, tableCount, bind_none, getD_none, beq_iff_eq] at hempty
    exact ⟨rfl, present_of_usedCount_eq_zero hempty⟩
  | some c =>
    obtain ⟨hlt, hcount⟩ := (h.counts c hc).table q t hne hq
    simp only [hc, tableCount, bind_some, if_pos hlt, getD_some,
      beq_iff_eq] at hempty
    rw [hempty, UInt16.toNat_zero] at hcount
    omega

theorem MapperInv.localPrune (h : MapperInv A p4 s) (hq : tableOf s.tables p4 q = some t)
    (hc : tableOf s.tables p4 (q ++ [i]) = some c) {r : List (Fin 512)}
    (htab : ∀ q', tableOf ((({ s with alloc := A.deallocateFrame s.alloc c } :
      MmState σ).setEntry t i .new).decCount t).tables p4 q' =
        if q' = r then none else tableOf s.tables p4 q') :
    LocalStep A p4 s ((({ s with alloc := A.deallocateFrame s.alloc c } :
      MmState σ).setEntry t i .new).decCount t) := by
  refine ⟨fun f hf => ?_, fun q' u hu => ?_⟩
  · have hft : f ≠ t := by
      rintro rfl
      exact hf.2.2 q hq
    refine ⟨update_of_ne hft _ _, ?_,
      countOf_bump (tableOf_frame h.root hq) hf.1 hft (-1) _ rfl⟩
    change f ∈ A.held (A.deallocateFrame s.alloc c)
    rw [A.deallocate]
    refine ⟨hf.2.1, ?_⟩
    rintro rfl
    exact hf.2.2 _ hc
  · rw [htab] at hu
    split at hu
    next => cases hu
    next => exact .inl ⟨q', hu⟩

/-- Reclaiming an empty table changes no leaf. -/
theorem reclaimTable_spec (h : MapperInv A p4 s) (hq : tableOf s.tables p4 q = some t)
    (hc : tableOf s.tables p4 (q ++ [i]) = some c) {next : MmState σ → MmState σ}
    (hnext : ∀ s₁, MapperInv A p4 s₁ →
      (∀ q', q' ≠ q ++ [i] → tableOf s₁.tables p4 q' = tableOf s.tables p4 q') →
      QuietStep A p4 s₁ (next s₁)) : QuietStep A p4 s (reclaimTable A t i c next s) := by
  unfold reclaimTable
  split
  next hempty =>
    obtain ⟨hnone, hblank⟩ := h.of_tableEmpty (by simp) hc hempty
    have hchild : tableFormat.child q.length (s.tables t i) = some c := by
      rwa [tableOf_snoc, hq, bind_some] at hc
    obtain ⟨hinv, hleaves, htab⟩ := h.prune hnone hq hchild hblank
    simp only [(of_child hchild).2]
    refine QuietStep.trans ⟨h.localPrune hq hc htab, hinv, hleaves, rfl, rfl⟩
      (hnext _ hinv fun q' hne => ?_)
    rw [htab, if_neg hne]
  next => exact .refl h

/-- The state after a leaf was cleared at a path and an index. -/
structure LeafCleared (A : FrameAllocator σ) (p4 : PhysAddr) (q : List (Fin 512)) (i : Fin 512)
    (e : PageTableEntry) (s s' : MmState σ) : Prop extends LocalStep A p4 s s' where
  inv : MapperInv A p4 s'
  mapped : leafOf s.tables p4 q i = some e
  leaves : ∀ q' j, leafOf s'.tables p4 q' j =
    if q' = q ∧ j = i then none else leafOf s.tables p4 q' j
  offset : s'.physOffset = s.physOffset

theorem LeafCleared.before (h : LeafCleared A p4 q i e s s₁)
    (h1 : QuietStep A p4 s₁ s') : LeafCleared A p4 q i e s s' :=
  ⟨h.toLocalStep.trans h.inv.root h1.toLocalStep, h1.inv, h.mapped,
    fun q' j => (h1.leaves q' j).trans (h.leaves q' j), h1.offset.trans h.offset⟩

theorem LeafCleared.with_rmap (h : LeafCleared A p4 q i e s s') (m : Rmap) :
    LeafCleared A p4 q i e s { s' with rmap := m } :=
  ⟨⟨h.outside, h.fresh⟩, h.inv.with_rmap m, h.mapped, h.leaves, h.offset⟩

/-- Clearing a leaf and counting it off keeps all tables. -/
theorem MapperInv.leafCleared (h : MapperInv A p4 s) (hq : tableOf s.tables p4 q = some t)
    (hleaf : tableFormat.leaf q.length (s.tables t i) = true) :
    LeafCleared A p4 q i (s.tables t i) s ((s.setEntry t i .new).decCount t) ∧
      ∀ q', tableOf ((s.setEntry t i .new).decCount t).tables p4 q' = tableOf s.tables p4 q' := by
  have hnew := child_eq_none new_present q.length
  have htab := tableAt_setLeaf h.separate hq (child_of_leaf hleaf) hnew
  refine ⟨⟨h.localStore hq _ (-1) htab, h.clearLeaf hq hleaf,
    leafOf_eq_some.mpr ⟨t, hq, rfl, hleaf⟩, fun q' j => ?_, rfl⟩, htab⟩
  refine (leafAt_setLeaf h.separate hq (child_of_leaf hleaf) hnew q' j).trans ?_
  rw [filter_some, leaf_eq_false new_present]
  rfl

/-- What `unmap_page` forgets: user pages of 4 KiB. -/
def PageLevel.forget (l : PageLevel) (m : Rmap) (e : PageTableEntry) (p4 : PhysAddr)
    (page : VirtAddr) : Rmap :=
  if l = .small ∧ e.flags.contains .USER_ACCESSIBLE then rmapRemove m e.addr p4 page else m

/-- What `unmap_page` does at each page size, with the tables on the way. -/
inductive UnmapStep (A : FrameAllocator σ) (p4 : PhysAddr) (page : VirtAddr) (s : MmState σ) :
    Except MapFault PhysAddr → MmState σ → Prop where
  | missing : UnmapStep A p4 page s (.error (.err .PageNotMapped)) s
  | giant {p3 : PhysAddr} (h3 : tableOf s.tables p4 [page.p4Index] = some p3)
      (hleaf : tableFormat.leaf 1 (s.tables p3 page.p3Index) = true) :
      UnmapStep A p4 page s (.ok (s.tables p3 page.p3Index).addr)
        (reclaimTable A p4 page.p4Index p3 id ((s.setEntry p3 page.p3Index .new).decCount p3))
  | large {p3 p2 : PhysAddr} (h3 : tableOf s.tables p4 [page.p4Index] = some p3)
      (h2 : tableOf s.tables p4 [page.p4Index, page.p3Index] = some p2)
      (hleaf : tableFormat.leaf 2 (s.tables p2 page.p2Index) = true) :
      UnmapStep A p4 page s (.ok (s.tables p2 page.p2Index).addr)
        (reclaimTable A p3 page.p3Index p2 (reclaimTable A p4 page.p4Index p3 id)
          ((s.setEntry p2 page.p2Index .new).decCount p2))
  | small {p3 p2 p1 : PhysAddr} (h3 : tableOf s.tables p4 [page.p4Index] = some p3)
      (h2 : tableOf s.tables p4 [page.p4Index, page.p3Index] = some p2)
      (h1 : tableOf s.tables p4 [page.p4Index, page.p3Index, page.p2Index] = some p1)
      (hleaf : tableFormat.leaf 3 (s.tables p1 page.p1Index) = true) :
      UnmapStep A p4 page s (.ok (s.tables p1 page.p1Index).addr)
        (reclaimTable A p2 page.p2Index p1
          (reclaimTable A p3 page.p3Index p2 (reclaimTable A p4 page.p4Index p3 id))
          { (s.setEntry p1 page.p1Index .new).decCount p1 with
            rmap := PageLevel.small.forget s.rmap (s.tables p1 page.p1Index) p4 page })

theorem unmapStep_of_run (hrun : unmapPageInner A p4 page s = (r, s')) :
    UnmapStep A p4 page s r s' := by
  unfold unmapPageInner at hrun
  simp only at hrun
  -- The P3 table.
  split at hrun
  next =>
    cases hrun
    exact .missing
  next h4 =>
  have hq3 : tableOf s.tables p4 [page.p4Index] = some (s.tables p4 page.p4Index).addr := by
    simp only [Bool.not_eq_true, Bool.not_eq_false'] at h4
    simp [tableAt, descend, tableFormat, h4]
  generalize (s.tables p4 page.p4Index).addr = p3 at hrun hq3
  split at hrun
  next =>
    cases hrun
    exact .missing
  next h3 =>
  split at hrun
  next hh3 =>
    cases hrun
    exact .giant hq3 (by simpa [tableFormat, hh3] using h3)
  next hh3 =>
  -- The P2 table.
  have hq2 : tableOf s.tables p4 [page.p4Index, page.p3Index] =
      some (s.tables p3 page.p3Index).addr :=
    (tableOf_snoc _ _ [page.p4Index] _).trans (by
      rw [hq3, bind_some]
      exact child_of_present (by simpa using h3) (by simpa using hh3) (by simp))
  generalize (s.tables p3 page.p3Index).addr = p2 at hrun hq2
  split at hrun
  next =>
    cases hrun
    exact .missing
  next h2 =>
  split at hrun
  next hh2 =>
    cases hrun
    exact .large hq3 hq2 (by simpa [tableFormat, hh2] using h2)
  next hh2 =>
  -- The P1 table.
  have hq1 : tableOf s.tables p4 [page.p4Index, page.p3Index, page.p2Index] =
      some (s.tables p2 page.p2Index).addr :=
    (tableOf_snoc _ _ [page.p4Index, page.p3Index] _).trans (by
      rw [hq2, bind_some]
      exact child_of_present (by simpa using h2) (by simpa using hh2) (by simp))
  generalize (s.tables p2 page.p2Index).addr = p1 at hrun hq1
  split at hrun
  next =>
    cases hrun
    exact .missing
  next h1 =>
    have hm : (if (s.tables p1 page.p1Index).flags.contains .USER_ACCESSIBLE = true then
        { (s.setEntry p1 page.p1Index .new).decCount p1 with
          rmap := rmapRemove ((s.setEntry p1 page.p1Index .new).decCount p1).rmap
            (s.tables p1 page.p1Index).addr p4 page }
        else (s.setEntry p1 page.p1Index .new).decCount p1) =
          { (s.setEntry p1 page.p1Index .new).decCount p1 with
            rmap := PageLevel.small.forget s.rmap (s.tables p1 page.p1Index) p4 page } := by
      simp only [PageLevel.forget, true_and]
      split <;> rfl
    rw [hm] at hrun
    cases hrun
    exact .small hq3 hq2 hq1 (by simpa [tableFormat] using h1)

/-- `unmap_page` clears the leaf of the page and returns its frame, or changes
nothing. -/
theorem unmapPageInner_spec (h : MapperInv A p4 s) (hrun : unmapPageInner A p4 page s = (r, s')) :
    (∃ (l : PageLevel) (e : PageTableEntry), r = .ok e.addr ∧
        LeafCleared A p4 (l.path page) (l.index page) e s s' ∧
        s'.rmap = l.forget s.rmap e p4 page) ∨
      r = .error (.err .PageNotMapped) ∧ s' = s := by
  -- How the tables on the way are reclaimed.
  have hreclaim3 : ∀ p3 s₁, MapperInv A p4 s₁ → tableOf s₁.tables p4 [page.p4Index] = some p3 →
      QuietStep A p4 s₁ (reclaimTable A p4 page.p4Index p3 id s₁) := fun p3 s₁ h1 hq₁ =>
    reclaimTable_spec h1 (q := []) rfl hq₁ fun s₂ h2 _ => .refl h2
  have hreclaim2 : ∀ p3 p2 s₁, MapperInv A p4 s₁ →
      tableOf s₁.tables p4 [page.p4Index] = some p3 →
      tableOf s₁.tables p4 [page.p4Index, page.p3Index] = some p2 →
      QuietStep A p4 s₁ (reclaimTable A p3 page.p3Index p2
        (reclaimTable A p4 page.p4Index p3 id) s₁) := fun p3 p2 s₁ h1 hq₁ hq1' =>
    reclaimTable_spec h1 hq₁ hq1' fun s₂ h2 hkeep =>
      hreclaim3 p3 s₂ h2 ((hkeep _ (by simp)).trans hq₁)
  cases unmapStep_of_run hrun with
  | missing => exact .inr ⟨rfl, rfl⟩
  | giant hq3 hleaf =>
    obtain ⟨hclear, htab⟩ := h.leafCleared hq3 hleaf
    have hquiet := hreclaim3 _ _ hclear.inv (by rw [htab, hq3])
    exact .inl ⟨.giant, _, rfl, hclear.before hquiet, hquiet.rmap⟩
  | large hq3 hq2 hleaf =>
    obtain ⟨hclear, htab⟩ := h.leafCleared hq2 hleaf
    have hquiet := hreclaim2 _ _ _ hclear.inv (by rw [htab, hq3]) (by rw [htab, hq2])
    exact .inl ⟨.large, _, rfl, hclear.before hquiet, hquiet.rmap⟩
  | @small p3 p2 p1 hq3 hq2 hq1 hleaf =>
    obtain ⟨hclear, htab⟩ := h.leafCleared hq1 hleaf
    -- The reverse map does not matter for the tables.
    have hrecord := hclear.with_rmap
      (PageLevel.small.forget s.rmap (s.tables p1 page.p1Index) p4 page)
    have hquiet := reclaimTable_spec hrecord.inv ((htab _).trans hq2) ((htab _).trans hq1)
      fun s₁ h1 hkeep => hreclaim2 p3 p2 s₁ h1 ((hkeep _ (by simp)).trans ((htab _).trans hq3))
        ((hkeep _ (by simp)).trans ((htab _).trans hq2))
    exact .inl ⟨.small, _, rfl, hrecord.before hquiet, hquiet.rmap⟩

end Operations

end BoruixKernel
