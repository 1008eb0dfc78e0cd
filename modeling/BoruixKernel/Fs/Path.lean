import Mathlib

/-!
# Paths

Strings are lists of characters.  `normalizePath` splits a path at the slashes, drops the
empty parts and `.`, lets `..` remove the part before it and joins the rest.  What is
left is a list of *components*: names that are not empty, have no slash and are not `.`
or `..`.  A path that is put together from components comes apart into the same ones.
-/

namespace BoruixKernel

open List

abbrev Str := List Char

def utf8Bytes (s : Str) : List UInt8 := s.flatMap String.utf8EncodeChar

/-- Rust's `join("/")`. -/
def joinParts (parts : List Str) : Str := ['/'].intercalate parts

/-- Rust's `trim_start_matches('/')`. -/
def trimStart (path : Str) : Str := path.dropWhile (· == '/')

/-- One round of the loop of `normalize_path`. -/
def pushPart (parts : List Str) (part : Str) : List Str :=
  if part = [] ∨ part = ['.'] then parts
  else if part = ['.', '.'] then parts.dropLast
  else parts ++ [part]

/-- The parts that `normalize_path` keeps. -/
def pathParts (path : Str) : List Str := (path.splitOn '/').foldl pushPart []

def normalizePath (path : Str) : Str :=
  if path = [] then ['/']
  else
    let out := (if path.head? = some '/' then ['/'] else []) ++ joinParts (pathParts path)
    if out = [] then ['/'] else out

def pathJoin (base rel : Str) : Str :=
  if rel.head? = some '/' then normalizePath rel
  else
    let tmp := if base.getLast? = some '/' then base else base ++ ['/']
    normalizePath (tmp ++ rel)

/-- Put a slash in front of a path that has none. -/
def absolute (path : Str) : Str := if path.head? = some '/' then path else '/' :: path

/-- A name that can stand between two slashes. -/
def IsComponent (name : Str) : Prop :=
  name ≠ [] ∧ '/' ∉ name ∧ name ≠ ['.'] ∧ name ≠ ['.', '.']

instance (name : Str) : Decidable (IsComponent name) :=
  inferInstanceAs (Decidable (_ ∧ _ ∧ _ ∧ _))

theorem not_mem_of_mem_splitOn {path part : Str} (h : part ∈ path.splitOn '/') : '/' ∉ part := by
  induction path generalizing part with
  | nil =>
    rw [splitOn_nil, mem_singleton] at h
    simp [h]
  | cons c path ih =>
    rw [splitOn_cons_eq_if_modifyHead] at h
    split at h
    · rcases mem_cons.mp h with rfl | h
      · simp
      · exact ih h
    · next hc =>
      cases hs : path.splitOn '/' with
      | nil => exact absurd hs (splitOn_ne_nil _ _)
      | cons first rest =>
        rw [hs, modifyHead_cons] at h
        rcases mem_cons.mp h with rfl | h
        · have hfirst := ih (hs ▸ mem_cons_self)
          simp only [mem_cons, not_or]
          exact ⟨fun heq => hc (by simp [← heq]), hfirst⟩
        · exact ih (hs ▸ mem_cons_of_mem _ h)

theorem foldl_pushPart_components {parts acc : List Str} (hacc : ∀ c ∈ acc, IsComponent c)
    (hparts : ∀ part ∈ parts, '/' ∉ part) : ∀ c ∈ parts.foldl pushPart acc, IsComponent c := by
  induction parts generalizing acc with
  | nil => exact hacc
  | cons part parts ih =>
    refine ih ?_ fun p hp => hparts p (mem_cons_of_mem _ hp)
    intro c hc
    unfold pushPart at hc
    split at hc
    · exact hacc c hc
    · next hdot =>
      split at hc
      · exact hacc c ((dropLast_sublist _).subset hc)
      · next hdots =>
        rcases mem_append.mp hc with hc | hc
        · exact hacc c hc
        · obtain rfl := mem_singleton.mp hc
          rw [not_or] at hdot
          exact ⟨hdot.1, hparts c mem_cons_self, hdot.2, hdots⟩

/-- What is left of a path are components. -/
theorem isComponent_of_mem_pathParts (h : c ∈ pathParts path) : IsComponent c :=
  foldl_pushPart_components (by simp) (fun _ => not_mem_of_mem_splitOn) c h

theorem foldl_pushPart_of_components {parts acc : List Str} (h : ∀ c ∈ parts, IsComponent c) :
    parts.foldl pushPart acc = acc ++ parts := by
  induction parts generalizing acc with
  | nil => simp
  | cons part parts ih =>
    obtain ⟨hne, -, hdot, hdots⟩ := h part mem_cons_self
    have hpush : pushPart acc part = acc ++ [part] := by simp [pushPart, hne, hdot, hdots]
    rw [foldl_cons, hpush, ih fun c hc => h c (mem_cons_of_mem _ hc), append_assoc,
      singleton_append]

section Components

variable {parts : List Str} (h : ∀ c ∈ parts, IsComponent c)
include h

theorem splitOn_joinParts (hne : parts ≠ []) : (joinParts parts).splitOn '/' = parts :=
  splitOn_intercalate '/' (fun c hc => (h c hc).2.1) hne

/-- A joined path starts with no slash. -/
theorem joinParts_head (hne : parts ≠ []) : ∃ c rest, joinParts parts = c :: rest ∧ c ≠ '/' := by
  cases hparts : parts with
  | nil => exact absurd hparts hne
  | cons first rest =>
    obtain ⟨hfirst, hslash, -⟩ := h first (hparts ▸ mem_cons_self)
    cases hf : first with
    | nil => exact absurd hf hfirst
    | cons c cs =>
      have hc : c ≠ '/' := by
        rintro rfl
        exact hslash (hf ▸ mem_cons_self)
      cases rest with
      | nil => exact ⟨c, cs, by simp [joinParts], hc⟩
      | cons second rest =>
        exact ⟨c, cs ++ ['/'] ++ joinParts (second :: rest), by
          simp [joinParts, intercalate_cons_cons], hc⟩

/-- A joined path ends with no slash. -/
theorem joinParts_getLast : (joinParts parts).getLast? ≠ some '/' := by
  intro hlast
  by_cases hne : parts = []
  · subst hne
    cases hlast
  · have hsplit := splitOn_joinParts h hne
    obtain ⟨init, hinit⟩ := getLast?_eq_some_iff.mp hlast
    rw [hinit, splitOn_append_cons_self, splitOn_nil] at hsplit
    have hempty : [] ∈ parts := hsplit ▸ mem_append_right _ (mem_singleton.mpr rfl)
    exact (h _ hempty).1 rfl

theorem trimStart_joinParts : trimStart (joinParts parts) = joinParts parts := by
  by_cases hne : parts = []
  · subst hne
    rfl
  · obtain ⟨c, rest, heq, hc⟩ := joinParts_head h hne
    rw [heq, trimStart, dropWhile_cons_of_neg (by simpa using hc)]

theorem trimStart_slash_joinParts : trimStart ('/' :: joinParts parts) = joinParts parts :=
  trimStart_joinParts h

/-- A path comes apart into the components it was put together from. -/
theorem pathParts_joinParts : pathParts ('/' :: joinParts parts) = parts := by
  rw [pathParts, ← nil_append ('/' :: joinParts parts), splitOn_append_cons_self,
    splitOn_nil, foldl_append]
  by_cases hne : parts = []
  · subst hne
    rfl
  · rw [splitOn_joinParts h hne]
    exact foldl_pushPart_of_components h

end Components

theorem joinParts_eq_nil (h : ∀ c ∈ parts, IsComponent c) : joinParts parts = [] ↔ parts = [] := by
  constructor
  · intro heq
    by_contra hne
    obtain ⟨c, rest, hcons, -⟩ := joinParts_head h hne
    rw [heq] at hcons
    cases hcons
  · rintro rfl
    rfl

/-- A normalised path is made of the parts that are kept, with or without a slash in
front. -/
theorem normalizePath_eq (path : Str) : normalizePath path =
    if pathParts path = [] then ['/']
    else if path.head? = some '/' then '/' :: joinParts (pathParts path) else joinParts (pathParts path) := by
  rw [normalizePath]
  by_cases h : pathParts path = []
  · rw [h, if_pos rfl]
    split
    · rfl
    · split <;> simp [joinParts]
  · have hjoin : joinParts (pathParts path) ≠ [] := fun heq =>
      h ((joinParts_eq_nil fun _ => isComponent_of_mem_pathParts).mp heq)
    have hne : path ≠ [] := by
      rintro rfl
      exact h rfl
    rw [if_neg h, if_neg hne]
    split <;> simp [hjoin]

theorem normalizePath_cases (h : pathParts path ≠ []) :
    normalizePath path = '/' :: joinParts (pathParts path) ∨
      normalizePath path = joinParts (pathParts path) := by
  rw [normalizePath_eq, if_neg h]
  exact ite_eq_or_eq ..

theorem normalizePath_of_nil (h : pathParts path = []) : normalizePath path = ['/'] := by
  rw [normalizePath_eq, if_pos h]

theorem normalizePath_eq_slash : normalizePath path = ['/'] ↔ pathParts path = [] := by
  constructor
  · intro heq
    by_contra hne
    have hcomp : ∀ c ∈ pathParts path, IsComponent c := fun _ => isComponent_of_mem_pathParts
    obtain ⟨c, rest, hcons, hc⟩ := joinParts_head hcomp hne
    rcases normalizePath_cases hne with h | h
    · rw [h, List.cons.injEq] at heq
      exact hne ((joinParts_eq_nil hcomp).mp heq.2)
    · rw [h, hcons, List.cons.injEq] at heq
      exact hc heq.1
  · exact normalizePath_of_nil

/-- The walk over a normalised path sees its parts. -/
theorem splitOn_normalizePath (h : pathParts path ≠ []) :
    (trimStart (normalizePath path)).splitOn '/' = pathParts path := by
  have hcomp : ∀ c ∈ pathParts path, IsComponent c := fun _ => isComponent_of_mem_pathParts
  rcases normalizePath_cases h with heq | heq
  · rw [heq, trimStart_slash_joinParts hcomp, splitOn_joinParts hcomp h]
  · rw [heq, trimStart_joinParts hcomp, splitOn_joinParts hcomp h]

theorem trimStart_absolute (path : Str) : trimStart (absolute path) = trimStart path := by
  unfold absolute
  split
  · rfl
  · rfl

/-! ## Laws -/

theorem pathParts_append_slash (p q : Str) :
    pathParts (p ++ '/' :: q) = (q.splitOn '/').foldl pushPart (pathParts p) := by
  rw [pathParts, splitOn_append_cons_self, foldl_append]
  rfl

theorem pathParts_normalizePath (p : Str) : pathParts (normalizePath p) = pathParts p := by
  have hcomp : ∀ c ∈ pathParts p, IsComponent c := fun _ => isComponent_of_mem_pathParts
  by_cases h : pathParts p = []
  · rw [normalizePath_of_nil h, h]
    rfl
  rcases normalizePath_cases h with heq | heq
  · rw [heq, pathParts_joinParts hcomp]
  · rw [heq, pathParts, splitOn_joinParts hcomp h, foldl_pushPart_of_components hcomp, nil_append]

/-- Only the parts of a path and a slash in front of it count. -/
theorem normalizePath_congr (hparts : pathParts p = pathParts q)
    (hhead : pathParts q ≠ [] → (p.head? = some '/' ↔ q.head? = some '/')) :
    normalizePath p = normalizePath q := by
  rw [normalizePath_eq, normalizePath_eq, hparts]
  by_cases h : pathParts q = []
  · rw [if_pos h, if_pos h]
  · simp [hhead h]

theorem head_normalizePath (h : pathParts p ≠ []) :
    (normalizePath p).head? = some '/' ↔ p.head? = some '/' := by
  obtain ⟨c, rest, hcons, hc⟩ := joinParts_head (fun _ => isComponent_of_mem_pathParts) h
  rw [normalizePath_eq, if_neg h]
  split
  · simp [*]
  · simp [*]

/-- Normalising once is enough, and leaves components; it may be done on the way; and to join two
paths is to normalise them with a slash between them. -/
theorem normalizePath_laws (p q : Str) :
    normalizePath (normalizePath p) = normalizePath p ∧
    (normalizePath p = ['/'] ∨ (normalizePath p).getLast? ≠ some '/' ∧
      ∃ parts, (∀ c ∈ parts, IsComponent c) ∧
        (normalizePath p = '/' :: joinParts parts ∨ normalizePath p = joinParts parts)) ∧
    (p.head? = some '/' → normalizePath (p ++ '/' :: q) = normalizePath (normalizePath p ++ '/' :: q)) ∧
    pathJoin p q = if q.head? = some '/' then normalizePath q else normalizePath (p ++ '/' :: q) := by
  have hcomp : ∀ c ∈ pathParts p, IsComponent c := fun _ => isComponent_of_mem_pathParts
  refine ⟨normalizePath_congr (pathParts_normalizePath p) head_normalizePath, ?_, fun habs => ?_, ?_⟩
  · by_cases h : pathParts p = []
    · exact .inl (normalizePath_of_nil h)
    refine .inr ⟨?_, _, hcomp, normalizePath_cases h⟩
    have hlast := joinParts_getLast hcomp
    obtain ⟨c, rest, hcons, -⟩ := joinParts_head hcomp h
    rcases normalizePath_cases h with heq | heq
    · rw [heq]
      rwa [hcons, getLast?_cons_cons, ← hcons]
    · rwa [heq]
  · refine normalizePath_congr ?_ fun _ => ?_
    · rw [pathParts_append_slash, pathParts_append_slash, pathParts_normalizePath]
    · have hnorm : (normalizePath p).head? = some '/' := by
        rw [normalizePath_eq, habs, if_pos rfl]
        split <;> rfl
      simp [head?_append, habs, hnorm]
  · rw [pathJoin]
    split
    · rfl
    by_cases hslash : p.getLast? = some '/'
    · -- The part between the two slashes is empty.
      obtain ⟨init, rfl⟩ := getLast?_eq_some_iff.mp hslash
      rw [if_pos hslash]
      refine normalizePath_congr ?_ fun _ => ?_
      · rw [pathParts_append_slash, append_assoc, singleton_append, pathParts_append_slash,
          pathParts_append_slash]
        rfl
      · simp [head?_append]
    · simp [if_neg hslash]

end BoruixKernel
