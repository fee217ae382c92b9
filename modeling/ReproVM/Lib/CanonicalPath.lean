/-
# Canonical absolute paths as texts

A canonical path is a list of names, and its text is each of them after a slash.  A test on texts
sees less than the list: the text of `b` is a prefix of the text of `p` when the names of `b` are
the first names of `p`, but also when `p` goes on with a longer name where `b` has its last one
(`text_isPrefix_iff`).
-/
import ReproVM.Lib.Bytes

/-- The places from the root down; `.`, `..` and links are gone. -/
structure CanonicalPath where
  names : List Bytes
  nonempty : ∀ name ∈ names, name ≠ []
  noSlash : ∀ name ∈ names, 47 ∉ name
  noDots : ∀ name ∈ names, name ≠ [46] ∧ name ≠ [46, 46]

namespace CanonicalPath

open Bytes

/-! ## 1. Texts -/

def body (names : List Bytes) : Bytes := names.flatMap (47 :: ·)

/-- The root is the slash alone. -/
def text (p : CanonicalPath) : Bytes := if p.names = [] then [47] else body p.names

/-- The base is the path or one of the directories above it. -/
def Within (p base : CanonicalPath) : Prop := base.names <+: p.names

/-- Where `bs` has its last name, `ps` goes on with a longer one. -/
def Extends (ps bs : List Bytes) : Prop :=
  ∃ above last ext below, ext ≠ [] ∧ bs = above ++ [last] ∧ ps = above ++ (last ++ ext) :: below

/-! ## 2. Prefixes -/

/-- Empty, or the next name starts here. -/
def AtSlash (s : Bytes) : Prop := ∀ c ∈ s.head?, c = 47

theorem atSlash_body (names : List Bytes) : AtSlash (body names) := by
  cases names with
  | nil => simp [AtSlash, body]
  | cons x names => simp [AtSlash, body]

/-- Names end at the first slash. -/
theorem append_isPrefix_append {x y s t : Bytes} (hx : 47 ∉ x) (hy : 47 ∉ y) (hs : AtSlash s)
    (ht : AtSlash t) : x ++ s <+: y ++ t ↔ (s = [] ∧ x <+: y) ∨ (x = y ∧ s <+: t) := by
  induction x generalizing y with
  | nil =>
    cases s with
    | nil => simp
    | cons c s =>
      obtain rfl : c = 47 := hs c rfl
      cases y with
      | nil => simp
      | cons d y =>
        have hd : 47 ≠ d := fun h => hy (h ▸ List.mem_cons_self)
        simp [List.cons_prefix_cons, hd]
  | cons c x ih =>
    cases y with
    | nil =>
      have hc : c ≠ 47 := fun h => hx (h ▸ List.mem_cons_self)
      cases t with
      | nil => simp
      | cons d t =>
        obtain rfl : d = 47 := ht d rfl
        simp [List.cons_prefix_cons, hc]
    | cons d y =>
      rw [List.cons_append, List.cons_append, List.cons_prefix_cons, List.cons_prefix_cons,
        ih (fun h => hx (List.mem_cons_of_mem _ h)) (fun h => hy (List.mem_cons_of_mem _ h)),
        List.cons.injEq]
      tauto

/-- A name is a prefix of another: they are equal, or the other one is longer. -/
theorem isPrefix_iff_eq_or {x y : Bytes} : x <+: y ↔ x = y ∨ ∃ ext, ext ≠ [] ∧ y = x ++ ext := by
  constructor
  · rintro ⟨ext, rfl⟩
    rcases eq_or_ne ext [] with rfl | hext
    · exact .inl (List.append_nil x).symm
    · exact .inr ⟨ext, hext, rfl⟩
  · rintro (rfl | ⟨ext, -, rfl⟩)
    · exact List.prefix_refl x
    · exact List.prefix_append x ext

theorem extends_singleton {x y : Bytes} {ps : List Bytes} :
    Extends (y :: ps) [x] ↔ ∃ ext, ext ≠ [] ∧ y = x ++ ext := by
  constructor
  · rintro ⟨above, last, ext, below, hext, hbs, hps⟩
    cases above with
    | nil =>
      obtain rfl : x = last := by simpa using hbs
      exact ⟨ext, hext, (List.cons.inj hps).1⟩
    | cons z above => simp at hbs
  · rintro ⟨ext, hext, rfl⟩
    exact ⟨[], x, ext, ps, hext, rfl, rfl⟩

theorem extends_cons {x y : Bytes} {bs ps : List Bytes} (hne : bs ≠ []) :
    Extends (y :: ps) (x :: bs) ↔ x = y ∧ Extends ps bs := by
  constructor
  · rintro ⟨above, last, ext, below, hext, hbs, hps⟩
    cases above with
    | nil => exact absurd (List.cons.inj hbs).2 hne
    | cons z above =>
      obtain ⟨hxz, hbs'⟩ := List.cons.inj hbs
      obtain ⟨hyz, hps'⟩ := List.cons.inj hps
      exact ⟨hxz.trans hyz.symm, above, last, ext, below, hext, hbs', hps'⟩
  · rintro ⟨rfl, above, last, ext, below, hext, rfl, rfl⟩
    exact ⟨x :: above, last, ext, below, hext, rfl, rfl⟩

theorem body_isPrefix_iff {bs ps : List Bytes} (hbs : ∀ x ∈ bs, 47 ∉ x) (hps : ∀ y ∈ ps, 47 ∉ y) :
    body bs <+: body ps ↔ bs <+: ps ∨ Extends ps bs := by
  induction bs generalizing ps with
  | nil => simp [body]
  | cons x bs ih =>
    cases ps with
    | nil => simp [body, Extends]
    | cons y ps =>
      have hcut : body (x :: bs) <+: body (y :: ps) ↔
          (body bs = [] ∧ x <+: y) ∨ (x = y ∧ body bs <+: body ps) := by
        rw [← append_isPrefix_append (hbs x List.mem_cons_self) (hps y List.mem_cons_self)
          (atSlash_body bs) (atSlash_body ps)]
        exact List.cons_prefix_cons.trans (and_iff_right rfl)
      rw [hcut, ih (fun z hz => hbs z (List.mem_cons_of_mem _ hz))
        (fun z hz => hps z (List.mem_cons_of_mem _ hz)), List.cons_prefix_cons, isPrefix_iff_eq_or]
      rcases eq_or_ne bs [] with rfl | hne
      · have hnil : ¬ Extends ps [] := by
          rintro ⟨above, last, _, _, _, h, _⟩
          simp at h
        rw [extends_singleton]
        simp [body, hnil]
        tauto
      · have hbody : body bs ≠ [] := by
          obtain ⟨z, zs, rfl⟩ := List.exists_cons_of_ne_nil hne
          simp [body]
        rw [extends_cons hne]
        tauto

/-- **What a prefix test on texts sees**. -/
theorem text_isPrefix_iff (p base : CanonicalPath) :
    base.text <+: p.text ↔ Within p base ∨ Extends p.names base.names := by
  rw [Within, ← body_isPrefix_iff base.noSlash p.noSlash, text, text]
  split
  case isTrue hb =>
    rw [hb]
    refine iff_of_true ?_ List.nil_prefix
    split
    · exact List.prefix_refl _
    case isFalse hp =>
      obtain ⟨x, xs, hx⟩ := List.exists_cons_of_ne_nil hp
      rw [hx]
      exact List.cons_prefix_cons.mpr ⟨rfl, List.nil_prefix⟩
  case isFalse hb =>
    split
    case isTrue hp =>
      obtain ⟨x, xs, hx⟩ := List.exists_cons_of_ne_nil hb
      have hne := base.nonempty x (hx ▸ List.mem_cons_self)
      rw [hp, hx]
      simp [body, hne]
    · rfl

/-- The two never hold together. -/
theorem not_extends_of_within {p base : CanonicalPath} (h : Within p base) :
    ¬ Extends p.names base.names := by
  rintro ⟨above, last, ext, below, hext, hb, hp⟩
  rw [Within, hb, hp, List.prefix_append_right_inj, List.cons_prefix_cons] at h
  exact hext (by simpa using h.1)

end CanonicalPath
