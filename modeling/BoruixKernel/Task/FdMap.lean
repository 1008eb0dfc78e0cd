import BoruixKernel.Task.FdTable

/-!
# A descriptor table as a finite map

The map that a table stands for, and which operations of the table are those of the map.
Three are not for every argument.  `dup2` has no limit of its own, and panics for the
largest `usize`; `close_fd` reports success for every closed descriptor below the length of
the vectors; and once `dup2` has made a descriptor above the limit, `get_fd` and `dup`
find it.
-/

namespace BoruixKernel

open Function List Option

/-! ## Slots -/

namespace FdTable

variable {t t' : FdTable} {fd i len : Nat}

/-- What a descriptor refers to. -/
def slot (t : FdTable) (fd : Nat) : Option (HandleId × Bool) := (t.getFd fd).map (·, t.isCloexec fd)

theorem slot_eq_none : t.slot fd = none ↔ t.getFd fd = none := map_eq_none_iff

theorem getFd_of_le (h : t.entries.length ≤ fd) : t.getFd fd = none := by
  rw [getFd, getElem?_eq_none h]
  rfl

theorem getElem?_of_lt (h : fd < t.entries.length) : t.entries[fd]? = some (t.getFd fd) := by
  rw [getFd, getElem?_eq_getElem h]
  rfl

/-- The same slots, in vectors that may have grown. -/
structure Grown (t t' : FdTable) : Prop where
  getFd : ∀ fd, t'.getFd fd = t.getFd fd
  isCloexec : ∀ fd, t'.isCloexec fd = t.isCloexec fd

theorem Grown.slot (h : Grown t t') : t'.slot = t.slot := by
  funext fd
  rw [FdTable.slot, h.getFd, h.isCloexec]
  rfl

variable (t) in
theorem ensureLen_eq (len : Nat) (h : 8 * len < 2 ^ 63) :
    ∃ t', t.ensureLen len = some t' ∧ Grown t t' ∧ len ≤ t'.entries.length := by
  unfold ensureLen
  split
  · next hlt =>
    rw [if_neg (by omega)]
    refine ⟨_, rfl, ⟨fun fd => ?_, fun fd => ?_⟩, ?_⟩
    · by_cases hfd : fd < t.entries.length
      · rw [getFd, getFd, getElem?_append_left hfd]
      · rw [getFd_of_le (Nat.not_lt.mp hfd), getFd, getElem?_append_right (Nat.not_lt.mp hfd),
          getElem?_replicate]
        split <;> rfl
    · have hlen := t.length_eq
      by_cases hfd : fd < t.entries.length
      · rw [isCloexec, isCloexec, getElem?_append_left (by omega)]
      · rw [isCloexec, isCloexec, getElem?_append_right (by omega),
          getElem?_eq_none (l := t.cloexec) (by omega), getElem?_replicate]
        split <;> rfl
    · rw [length_append, length_replicate]
      omega
  · next hge => exact ⟨t, rfl, ⟨fun _ => rfl, fun _ => rfl⟩, Nat.not_lt.mp hge⟩

section

variable (h : fd < t.entries.length) (e : Option HandleId) (c : Bool)

include h e c

theorem getFd_setSlot : (t.setSlot fd e c).getFd = update t.getFd fd e := by
  funext i
  rw [getFd, setSlot, getElem?_set]
  by_cases hi : i = fd
  · subst hi
    rw [if_pos rfl, if_pos h, update_self]
    rfl
  · rw [if_neg (Ne.symm hi), update_of_ne hi]
    rfl

theorem isCloexec_setSlot : (t.setSlot fd e c).isCloexec = update t.isCloexec fd c := by
  have hlen := t.length_eq
  funext i
  rw [isCloexec, setSlot, getElem?_set]
  by_cases hi : i = fd
  · subst hi
    rw [if_pos rfl, if_pos (by omega), update_self]
    rfl
  · rw [if_neg (Ne.symm hi), update_of_ne hi]
    rfl

theorem slot_setSlot : (t.setSlot fd e c).slot = update t.slot fd (e.map (·, c)) := by
  funext i
  rw [slot, getFd_setSlot h, isCloexec_setSlot h]
  by_cases hi : i = fd
  · subst hi
    simp
  · simp [hi, slot]

end

/-! ## What the operations do to the slots -/

/-- `alloc_fd` from an index on: the first closed descriptor, or none up to the limit. -/
theorem allocLoop_eq (handle : HandleId) (c : Bool) (h : idx + left = MaxFd + 1) :
    ∃ r t', allocLoop handle c left idx t = some (r, t') ∧
      ((∃ fd, r = .ok fd ∧ idx ≤ fd ∧ fd ≤ MaxFd ∧ t.getFd fd = none ∧
          (∀ k, idx ≤ k → k < fd → t.getFd k ≠ none) ∧
          t'.getFd = update t.getFd fd (some handle) ∧
          t'.slot = update t.slot fd (some (handle, c))) ∨
        r = .error .NoSpace ∧ (∀ k, idx ≤ k → k ≤ MaxFd → t.getFd k ≠ none) ∧ Grown t t') := by
  induction left generalizing idx t with
  | zero =>
    refine ⟨_, t, rfl, .inr ⟨rfl, fun k hk hle => ?_, ⟨fun _ => rfl, fun _ => rfl⟩⟩⟩
    omega
  | succ left ih =>
    have hidx : idx ≤ MaxFd := by omega
    obtain ⟨t1, hensure, hgrown, hlen⟩ := ensureLen_eq t (idx + 1) (by
      unfold MaxFd at hidx
      omega)
    rw [allocLoop, hensure, bind_some, getElem?_of_lt hlen, hgrown.getFd]
    cases hfree : t.getFd idx with
    | none =>
      refine ⟨_, _, rfl, .inl ⟨idx, rfl, Nat.le_refl idx, hidx, hfree, fun k hk hlt => ?_, ?_, ?_⟩⟩
      · omega
      · rw [getFd_setSlot hlen, funext hgrown.getFd]
      · rw [slot_setSlot hlen, hgrown.slot]
        rfl
    | some used =>
      obtain ⟨r, t', hrun, hcases⟩ := @ih t1 (idx + 1) (by omega)
      refine ⟨r, t', hrun, ?_⟩
      have hbelow : ∀ k, idx ≤ k → (idx + 1 ≤ k → t1.getFd k ≠ none) → t.getFd k ≠ none := by
        intro k hk hrest
        rcases Nat.eq_or_lt_of_le hk with rfl | hlt
        · rw [hfree]
          exact some_ne_none used
        · rw [← hgrown.getFd]
          exact hrest hlt
      rcases hcases with ⟨fd, rfl, hle, hmax, hnone, hused, hget, hslot⟩ | ⟨rfl, hused, hgrown'⟩
      · left
        refine ⟨fd, rfl, by omega, hmax, by rw [← hgrown.getFd, hnone], fun k hk hlt => ?_, ?_, ?_⟩
        · exact hbelow k hk fun hk' => hused k hk' hlt
        · rw [hget, funext hgrown.getFd]
        · rw [hslot, hgrown.slot]
      · right
        refine ⟨rfl, fun k hk hle => hbelow k hk fun hk' => hused k hk' hle, ⟨fun k => ?_, fun k => ?_⟩⟩
        · rw [hgrown'.getFd, hgrown.getFd]
        · rw [hgrown'.isCloexec, hgrown.isCloexec]

/-- `close_fd` empties a slot within the vectors, closed or not. -/
theorem closeFd_of_lt (h : fd < t.entries.length) :
    t.closeFd fd hs = (.ok (), t.setSlot fd none false,
      match t.getFd fd with
      | some handle => hs.decRef handle
      | none => hs) := by
  have hentry := getElem?_of_lt h
  unfold closeFd
  cases hget : t.getFd fd <;> simp only [hentry, hget]

theorem closeFd_of_le (h : t.entries.length ≤ fd) : t.closeFd fd hs = (.error .NotFound, t, hs) := by
  rw [closeFd, getElem?_eq_none h]

theorem slot_closeFd : (t.closeFd fd hs).2.1.slot = update t.slot fd none := by
  by_cases h : fd < t.entries.length
  · rw [closeFd_of_lt h]
    exact slot_setSlot h none false
  · rw [closeFd_of_le (Nat.not_lt.mp h), update_eq_self_iff.mpr]
    exact (slot_eq_none.mpr (getFd_of_le (Nat.not_lt.mp h))).symm

theorem getFd_closeFd : (t.closeFd fd hs).2.1.getFd = update t.getFd fd none := by
  by_cases h : fd < t.entries.length
  · rw [closeFd_of_lt h]
    exact getFd_setSlot h none false
  · rw [closeFd_of_le (Nat.not_lt.mp h), update_eq_self_iff.mpr]
    exact (getFd_of_le (Nat.not_lt.mp h)).symm

theorem isCloexec_closeFd (h : i ≠ fd) : (t.closeFd fd hs).2.1.isCloexec i = t.isCloexec i := by
  by_cases hfd : fd < t.entries.length
  · rw [closeFd_of_lt hfd]
    change (t.setSlot fd none false).isCloexec i = _
    rw [isCloexec_setSlot hfd, update_of_ne h]
  · rw [closeFd_of_le (Nat.not_lt.mp hfd)]

/-- Closing some descriptors, by a condition that looks at no other one. -/
theorem slot_closeWhere (hp : ∀ (t : FdTable) hs i j, j ≠ i → p (t.closeFd i hs).2.1 j = p t j)
    (hnodup : is.Nodup) (fd : Nat) :
    (closeWhere p is t hs).1.slot fd = if fd ∈ is ∧ p t fd then none else t.slot fd := by
  induction is generalizing t hs with
  | nil => simp [closeWhere]
  | cons i is ih =>
    obtain ⟨hnot, hrest⟩ := nodup_cons.mp hnodup
    rw [closeWhere]
    by_cases hi : p t i
    · rw [if_pos hi, ih hrest, slot_closeFd]
      by_cases hfd : fd = i
      · subst hfd
        simp [hi]
      · simp [hp t hs i fd hfd, hfd]
    · rw [if_neg hi, ih hrest]
      by_cases hfd : fd = i
      · subst hfd
        simp [hi, hnot]
      · simp [hfd]

theorem slot_closeOnExec : (t.closeOnExec hs).1.slot = fun fd => (t.slot fd).filter (!·.2) := by
  funext fd
  rw [closeOnExec, slot_closeWhere (fun t hs i j h => isCloexec_closeFd h) nodup_range]
  cases hget : t.getFd fd with
  | none =>
    have hslot : t.slot fd = none := slot_eq_none.mpr hget
    rw [hslot, ite_self]
    rfl
  | some handle =>
    have hlt : fd < t.entries.length := by
      by_contra hge
      rw [getFd_of_le (Nat.not_lt.mp hge)] at hget
      cases hget
    rw [slot, hget]
    cases hc : t.isCloexec fd <;> simp [hlt, Option.filter]

end FdTable

/-! ## The map -/

/-- A partial map from the descriptors up to the limit. -/
@[ext]
structure FdMap where
  get : Nat → Option (HandleId × Bool)
  bounded : ∀ fd, MaxFd < fd → get fd = none

inductive FdCall where
  | allocFd (minFd : Nat) (handle : HandleId) (cloexec : Bool)
  | getFd (fd : Nat)
  | dup (fd minFd : Nat) (cloexec : Bool)
  | dup2 (oldfd newfd : Nat) (cloexec : Bool)
  | closeFd (fd : Nat)
  | forkClone
  | closeOnExec

/-- What an operation returns; `fork_clone` returns a table. -/
inductive FdAnswer (τ : Type) where
  | descriptor (fd : Nat)
  | handle (h : Option HandleId)
  | table (t : τ)
  | done
  | error (e : FdError)

def FdAnswer.map {τ τ' : Type} (f : τ → τ') : FdAnswer τ → FdAnswer τ'
  | descriptor fd => descriptor fd
  | handle h => handle h
  | table t => table (f t)
  | done => done
  | error e => error e

def FdAnswer.ofDescriptor {τ : Type} : Except FdError Nat → FdAnswer τ
  | .ok fd => descriptor fd
  | .error e => error e

def FdAnswer.ofUnit {τ : Type} : Except FdError Unit → FdAnswer τ
  | .ok () => done
  | .error e => error e

namespace FdMap

variable (m : FdMap)

/-- The least free descriptor from `minFd` on gets the value. -/
def Allocates (minFd : Nat) (value : HandleId × Bool) (a : FdAnswer FdMap) (m' : FdMap) : Prop :=
  (MaxFd < minFd ∧ a = .error .Invalid ∧ m' = m) ∨
    (∃ fd, IsLeast {fd | minFd ≤ fd ∧ fd ≤ MaxFd ∧ m.get fd = none} fd ∧ a = .descriptor fd ∧
      m'.get = update m.get fd (some value)) ∨
    (minFd ≤ MaxFd ∧ (∀ fd, minFd ≤ fd → fd ≤ MaxFd → m.get fd ≠ none) ∧ a = .error .NoSpace ∧ m' = m)

/-- The operations of a map: what they return, and the map after them. -/
def Step : FdCall → FdAnswer FdMap → FdMap → Prop
  | .allocFd minFd handle cloexec, a, m' => m.Allocates minFd (handle, cloexec) a m'
  | .getFd fd, a, m' => a = .handle ((m.get fd).map (·.1)) ∧ m' = m
  | .dup fd minFd cloexec, a, m' =>
    match m.get fd with
    | none => a = .error .NotFound ∧ m' = m
    | some (handle, _) => m.Allocates minFd (handle, cloexec) a m'
  | .dup2 oldfd newfd cloexec, a, m' =>
    match m.get oldfd with
    | none => a = .error .NotFound ∧ m' = m
    | some (handle, _) =>
      if newfd ≤ MaxFd then
        a = .descriptor newfd ∧ m'.get = update m.get newfd (some (handle, cloexec))
      else (∃ e, a = .error e) ∧ m' = m
  | .closeFd fd, a, m' =>
    if (m.get fd).isSome then a = .done ∧ m'.get = update m.get fd none
    else (∃ e, a = .error e) ∧ m' = m
  | .forkClone, a, m' => a = .table m ∧ m' = m
  | .closeOnExec, a, m' => a = .done ∧ m'.get = fun fd => (m.get fd).filter (!·.2)

end FdMap

namespace FdTable

variable {t t' : FdTable} {hs : Handles} {fd : Nat}

def toMap (t : FdTable) : FdMap :=
  ⟨fun fd => if fd ≤ MaxFd then t.slot fd else none, fun _ h => if_neg (Nat.not_le.mpr h)⟩

def perform (t : FdTable) (hs : Handles) : FdCall → Option (FdAnswer FdTable × FdTable × Handles)
  | .allocFd minFd handle cloexec =>
    (t.allocFd minFd handle cloexec).map fun (r, t) => (.ofDescriptor r, t, hs)
  | .getFd fd => some (.handle (t.getFd fd), t, hs)
  | .dup fd minFd cloexec => (t.dup fd minFd cloexec hs).map fun (r, s) => (.ofDescriptor r, s)
  | .dup2 oldfd newfd cloexec => (t.dup2 oldfd newfd cloexec hs).map fun (r, s) => (.ofDescriptor r, s)
  | .closeFd fd => some (.ofUnit (t.closeFd fd hs).1, (t.closeFd fd hs).2)
  | .forkClone => some (.table (t.forkClone hs).1, t, (t.forkClone hs).2)
  | .closeOnExec => some (.done, t.closeOnExec hs)

/-- The calls for which the table acts like the map. -/
def Within (t : FdTable) : FdCall → Prop
  | .getFd fd | .dup fd _ _ => fd ≤ MaxFd ∨ t.getFd fd = none
  | .dup2 oldfd newfd _ => t.getFd oldfd = none ∨ (oldfd ≤ MaxFd ∧ newfd ≤ MaxFd)
  | .closeFd fd => (fd ≤ MaxFd ∧ t.getFd fd ≠ none) ∨ t.entries.length ≤ fd
  | .allocFd .. | .forkClone | .closeOnExec => True

theorem toMap_get (h : fd ≤ MaxFd) : t.toMap.get fd = t.slot fd := if_pos h

theorem toMap_get_of_lt (h : MaxFd < fd) : t.toMap.get fd = none := t.toMap.bounded fd h

theorem toMap_get_eq_none (h : t.getFd fd = none) : t.toMap.get fd = none := by
  change (if fd ≤ MaxFd then t.slot fd else none) = none
  rw [slot_eq_none.mpr h, ite_self]

theorem toMap_get_some (hle : fd ≤ MaxFd) (h : t.getFd fd = some handle) :
    t.toMap.get fd = some (handle, t.isCloexec fd) := by
  rw [toMap_get hle, slot, h]
  rfl

theorem toMap_congr (h : t'.slot = t.slot) : t'.toMap = t.toMap := by
  ext1
  funext fd
  change (if fd ≤ MaxFd then t'.slot fd else none) = if fd ≤ MaxFd then t.slot fd else none
  rw [h]

theorem toMap_update (hfd : fd ≤ MaxFd) (h : t'.slot = update t.slot fd v) :
    t'.toMap.get = update t.toMap.get fd v := by
  funext i
  change (if i ≤ MaxFd then t'.slot i else none) = _
  rw [h]
  by_cases hi : i = fd
  · subst hi
    rw [if_pos hfd, update_self, update_self]
  · rw [update_of_ne hi, update_of_ne hi]
    rfl

/-- `alloc_fd` is that of the map. -/
theorem allocFd_allocates (minFd : Nat) (handle : HandleId) (c : Bool) :
    ∃ r t', t.allocFd minFd handle c = some (r, t') ∧
      t.toMap.Allocates minFd (handle, c) (.ofDescriptor r) t'.toMap := by
  unfold allocFd
  split
  · next hlt => exact ⟨_, t, rfl, .inl ⟨hlt, rfl, rfl⟩⟩
  · next hge =>
    obtain ⟨r, t', hrun, hcases⟩ := allocLoop_eq (t := t) handle c
      (Nat.add_sub_of_le (Nat.le_succ_of_le (Nat.not_lt.mp hge)))
    refine ⟨r, t', hrun, .inr ?_⟩
    rcases hcases with ⟨fd, rfl, hle, hmax, hnone, hused, -, hslot⟩ | ⟨rfl, hused, hgrown⟩
    · left
      refine ⟨fd, ⟨⟨hle, hmax, toMap_get_eq_none hnone⟩, fun k hk => ?_⟩, rfl, toMap_update hmax hslot⟩
      by_contra hlt
      refine hused k hk.1 (Nat.not_le.mp hlt) (slot_eq_none.mp ?_)
      rw [← toMap_get hk.2.1]
      exact hk.2.2
    · right
      refine ⟨Nat.not_lt.mp hge, fun k hk hle => ?_, rfl, toMap_congr hgrown.slot⟩
      rw [toMap_get hle]
      exact fun hnone => hused k hk hle (slot_eq_none.mp hnone)

variable (hs) in
/-- `dup2` to a descriptor within the limit. -/
theorem dup2_of_le (c : Bool) (hold : t.getFd oldfd = some handle) (hnew : newfd ≤ MaxFd) :
    ∃ t' hs', t.dup2 oldfd newfd c hs = some (.ok newfd, t', hs') ∧
      t'.slot = update t.slot newfd (some (handle, c)) := by
  have hmod : (newfd + 1) % 2 ^ 64 = newfd + 1 := Nat.mod_eq_of_lt (by
    unfold MaxFd at hnew
    omega)
  obtain ⟨t1, hensure, hgrown, hlen⟩ := ensureLen_eq t (newfd + 1) (by
    unfold MaxFd at hnew
    omega)
  rw [dup2, hold]
  dsimp only
  rw [hmod, hensure, bind_some, getElem?_of_lt hlen]
  dsimp only
  by_cases heq : oldfd = newfd
  · subst heq
    refine ⟨_, _, if_pos rfl, ?_⟩
    rw [slot_setSlot hlen, hgrown.slot, hgrown.getFd, hold]
    rfl
  · rw [if_neg heq]
    refine ⟨_, _, rfl, ?_⟩
    split
    · -- The old handle of the target is closed before.
      rw [closeFd_of_lt hlen, slot_setSlot (by simpa [setSlot] using Nat.lt_of_succ_le hlen), slot_setSlot hlen, hgrown.slot,
        update_idem]
      rfl
    · rw [slot_setSlot hlen, hgrown.slot]
      rfl

variable (hs) in
/-- `dup2` never fails for a handle that is there: it returns the descriptor or panics. -/
theorem dup2_eq_none_or_ok (c : Bool) (hold : t.getFd oldfd = some handle) :
    t.dup2 oldfd newfd c hs = none ∨ ∃ s, t.dup2 oldfd newfd c hs = some (.ok newfd, s) := by
  rw [dup2, hold]
  dsimp only
  cases t.ensureLen ((newfd + 1) % 2 ^ 64) with
  | none => exact .inl rfl
  | some t1 =>
    rw [bind_some]
    split
    · exact .inl rfl
    · split <;> exact .inr ⟨_, rfl⟩

/-- A call returns what it returns for the map, and leaves the table for the map after it. -/
def ActsAsMap (t : FdTable) (hs : Handles) (call : FdCall) : Prop :=
  ∃ a t' hs', t.perform hs call = some (a, t', hs') ∧ t.toMap.Step call (a.map toMap) t'.toMap

theorem actsAsMap_allocFd (minFd : Nat) (handle : HandleId) (c : Bool) :
    t.ActsAsMap hs (.allocFd minFd handle c) := by
  obtain ⟨r, t', hrun, hstep⟩ := allocFd_allocates (t := t) minFd handle c
  refine ⟨.ofDescriptor r, t', hs, ?_, ?_⟩
  · rw [perform, hrun]
    rfl
  · cases r <;> exact hstep

theorem actsAsMap_getFd (fd : Nat) : t.ActsAsMap hs (.getFd fd) ↔ t.Within (.getFd fd) := by
  constructor
  · rintro ⟨_, _, _, ⟨⟩, ha, -⟩
    by_contra hnot
    obtain ⟨hlt, hopen⟩ := not_or.mp hnot
    rw [toMap_get_of_lt (Nat.not_le.mp hlt)] at ha
    injection ha with ha
    exact hopen ha
  · intro hwithin
    refine ⟨_, t, hs, rfl, congrArg FdAnswer.handle ?_, rfl⟩
    rcases hwithin with hle | hnone
    · rw [toMap_get hle, slot, Option.map_map]
      exact map_id_apply.symm
    · rw [toMap_get_eq_none hnone, hnone]
      rfl

theorem actsAsMap_dup (fd minFd : Nat) (c : Bool) :
    t.ActsAsMap hs (.dup fd minFd c) ↔ t.Within (.dup fd minFd c) := by
  cases hget : t.getFd fd with
  | none =>
    refine iff_of_true ⟨.error .NotFound, t, hs, ?_, ?_⟩ (.inr hget)
    · rw [perform, dup, hget]
      rfl
    · simp [FdMap.Step, toMap_get_eq_none hget, FdAnswer.map]
  | some handle =>
    obtain ⟨r, t', hrun, hstep⟩ := allocFd_allocates (t := t) minFd handle c
    have hperform : t.perform hs (.dup fd minFd c) = some (.ofDescriptor r, t', hs.incRef handle) := by
      rw [perform, dup, hget]
      dsimp only
      rw [hrun]
      rfl
    constructor
    · rintro ⟨a, t1, hs1, hrun1, hstep1⟩
      rw [hperform] at hrun1
      cases hrun1
      by_contra hnot
      obtain ⟨hlt, -⟩ := not_or.mp hnot
      simp only [FdMap.Step, toMap_get_of_lt (Nat.not_le.mp hlt)] at hstep1
      -- The map has no such descriptor, which is not what `alloc_fd` answers.
      have ha := hstep1.1
      rcases hstep with ⟨-, hr, -⟩ | ⟨fd', -, hr, -⟩ | ⟨-, -, hr, -⟩ <;> cases r <;> cases hr <;> cases ha
    · rintro (hle | hnone)
      · refine ⟨_, t', _, hperform, ?_⟩
        simp only [FdMap.Step, toMap_get_some hle hget]
        cases r <;> exact hstep
      · rw [hget] at hnone
        cases hnone

theorem actsAsMap_dup2 (oldfd newfd : Nat) (c : Bool) :
    t.ActsAsMap hs (.dup2 oldfd newfd c) ↔ t.Within (.dup2 oldfd newfd c) := by
  cases hget : t.getFd oldfd with
  | none =>
    refine iff_of_true ⟨.error .NotFound, t, hs, ?_, ?_⟩ (.inl hget)
    · rw [perform, dup2, hget]
      rfl
    · simp [FdMap.Step, toMap_get_eq_none hget, FdAnswer.map]
  | some handle =>
    constructor
    · rintro ⟨a, t', hs', hrun, hstep⟩
      have ha : a = .descriptor newfd := by
        rw [perform] at hrun
        rcases dup2_eq_none_or_ok hs c hget with hnone | ⟨s, hsome⟩
        · rw [hnone] at hrun
          cases hrun
        · rw [hsome] at hrun
          cases hrun
          rfl
      subst ha
      right
      by_contra hnot
      by_cases hold : oldfd ≤ MaxFd
      · have hnew : ¬ newfd ≤ MaxFd := fun hnew => hnot ⟨hold, hnew⟩
        simp only [FdMap.Step, toMap_get_some hold hget, if_neg hnew] at hstep
        obtain ⟨⟨e, he⟩, -⟩ := hstep
        cases he
      · simp only [FdMap.Step, toMap_get_of_lt (Nat.not_le.mp hold)] at hstep
        cases hstep.1
    · rintro (hnone | ⟨hold, hnew⟩)
      · rw [hget] at hnone
        cases hnone
      · obtain ⟨t', hs', hrun, hslot⟩ := dup2_of_le hs c hget hnew
        refine ⟨.descriptor newfd, t', hs', ?_, ?_⟩
        · rw [perform, hrun]
          rfl
        · simp only [FdMap.Step, toMap_get_some hold hget, if_pos hnew]
          exact ⟨rfl, toMap_update hnew hslot⟩

theorem actsAsMap_closeFd (fd : Nat) : t.ActsAsMap hs (.closeFd fd) ↔ t.Within (.closeFd fd) := by
  have hperform : t.perform hs (.closeFd fd) =
    some (.ofUnit (t.closeFd fd hs).1, (t.closeFd fd hs).2.1, (t.closeFd fd hs).2.2) := rfl
  constructor
  · rintro ⟨a, t', hs', hrun, hstep⟩
    rw [hperform] at hrun
    cases hrun
    by_cases hlt : fd < t.entries.length
    · left
      rw [closeFd_of_lt hlt] at hstep
      by_cases hopen : (t.toMap.get fd).isSome
      · have hle : fd ≤ MaxFd := by
          by_contra hgt
          rw [toMap_get_of_lt (Nat.not_le.mp hgt)] at hopen
          cases hopen
        refine ⟨hle, fun hnone => ?_⟩
        rw [toMap_get_eq_none hnone] at hopen
        cases hopen
      · simp only [FdMap.Step, if_neg hopen] at hstep
        obtain ⟨⟨e, he⟩, -⟩ := hstep
        cases he
    · exact .inr (Nat.not_lt.mp hlt)
  · rintro (⟨hle, hopen⟩ | hge)
    · have hlt : fd < t.entries.length := by
        by_contra hge
        exact hopen (getFd_of_le (Nat.not_lt.mp hge))
      have hsome : (t.toMap.get fd).isSome := by
        rw [toMap_get hle, isSome_iff_ne_none]
        exact fun hnone => hopen (slot_eq_none.mp hnone)
      refine ⟨_, _, _, hperform, ?_⟩
      simp only [FdMap.Step, if_pos hsome]
      refine ⟨?_, toMap_update hle slot_closeFd⟩
      rw [closeFd_of_lt hlt]
      rfl
    · have hnone : ¬ (t.toMap.get fd).isSome := by
        rw [toMap_get_eq_none (getFd_of_le hge)]
        exact Bool.false_ne_true
      refine ⟨_, _, _, hperform, ?_⟩
      simp only [FdMap.Step, if_neg hnone]
      rw [closeFd_of_le hge]
      exact ⟨⟨.NotFound, rfl⟩, rfl⟩

theorem actsAsMap_closeOnExec : t.ActsAsMap hs .closeOnExec := by
  refine ⟨.done, (t.closeOnExec hs).1, (t.closeOnExec hs).2, rfl, rfl, ?_⟩
  funext fd
  change (if fd ≤ MaxFd then (t.closeOnExec hs).1.slot fd else none) =
    (if fd ≤ MaxFd then t.slot fd else none).filter _
  rw [slot_closeOnExec]
  split <;> rfl

/-- A table acts like the map it stands for exactly in the calls that are `Within`. -/
theorem actsAsMap_iff (t : FdTable) (hs : Handles) (call : FdCall) :
    t.ActsAsMap hs call ↔ t.Within call := by
  cases call with
  | allocFd minFd handle c => exact iff_of_true (actsAsMap_allocFd minFd handle c) trivial
  | getFd fd => exact actsAsMap_getFd fd
  | dup fd minFd c => exact actsAsMap_dup fd minFd c
  | dup2 oldfd newfd c => exact actsAsMap_dup2 oldfd newfd c
  | closeFd fd => exact actsAsMap_closeFd fd
  | forkClone => exact iff_of_true ⟨.table t, t, (t.forkClone hs).2, rfl, rfl, rfl⟩ trivial
  | closeOnExec => exact iff_of_true actsAsMap_closeOnExec trivial

/-- The largest `usize` as a target of `dup2` is a panic, and a closed descriptor can be
closed once more. -/
theorem dup2_panics_closeFd_twice :
    let hs : Handles := fun _ => .new 0 0
    ∃ t, FdTable.new.allocFd 0 7 false = some (.ok 0, t) ∧
      t.perform hs (.dup2 0 (2 ^ 64 - 1) false) = none ∧
      ∃ t' hs', t.perform hs (.closeFd 0) = some (.done, t', hs') ∧ t'.toMap.get 0 = none ∧
        (t'.perform hs' (.closeFd 0)).map (·.1) = some .done :=
  ⟨⟨[some 7], [false], rfl⟩, rfl, rfl, ⟨[none], [false], rfl⟩, _, rfl, rfl, rfl⟩

end FdTable

end BoruixKernel
