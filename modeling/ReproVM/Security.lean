/-
# Confinement to a directory: `is_within_directory` of `security.c`

Both paths are resolved, and then their texts are compared up to the length of the base.  That is
the comparison of the lists of names, except that a sibling whose name starts with the last name
of the base passes as well (`isWithinDirectory_iff`).

`validate_hash` accepts the 64 hexadecimal digits of a SHA-256, in either case.
-/
import ReproVM.Util
import ReproVM.Lib.CanonicalPath
import ReproVM.Lib.Decimal

namespace ReproVM

open Bytes (ascii decimal)
open CanonicalPath (Within Extends)

/-! ## 1. The code -/

/-- `realpath` depends on the file system; what it returns is canonical. -/
def isWithinDirectory (realpath : Bytes → Option CanonicalPath) (path baseDir : Bytes) : Int :=
  match realpath path, realpath baseDir with
  | some resolvedPath, some resolvedBase =>
    if startsWith resolvedPath.text resolvedBase.text then 1 else 0
  | _, _ => 0

/-! ## 2. Confinement -/

/-- Both resolve, and the base is the path or one of the directories above it. -/
def Confined (realpath : Bytes → Option CanonicalPath) (path baseDir : Bytes) : Prop :=
  ∃ p base, realpath path = some p ∧ realpath baseDir = some base ∧ Within p base

theorem isWithinDirectory_eq_one {realpath : Bytes → Option CanonicalPath} {path baseDir : Bytes} :
    isWithinDirectory realpath path baseDir = 1 ↔
      ∃ p base, realpath path = some p ∧ realpath baseDir = some base ∧
        (Within p base ∨ Extends p.names base.names) := by
  rw [isWithinDirectory]
  cases hp : realpath path with
  | none => simp
  | some p =>
    cases hb : realpath baseDir with
    | none => simp
    | some base =>
      have htest : startsWith p.text base.text = true ↔ Within p base ∨ Extends p.names base.names := by
        rw [startsWith, List.isPrefixOf_iff_prefix, CanonicalPath.text_isPrefix_iff]
      simp [← htest]

/-- **When the test is component-wise**: iff the resolved path does not go on with a longer name
where the resolved base has its last one. -/
theorem isWithinDirectory_iff (realpath : Bytes → Option CanonicalPath) (path baseDir : Bytes) :
    (isWithinDirectory realpath path baseDir = 1 ↔ Confined realpath path baseDir) ↔
      ∀ p base, realpath path = some p → realpath baseDir = some base →
        ¬ Extends p.names base.names := by
  rw [isWithinDirectory_eq_one]
  constructor
  · rintro h p base hp hb hext
    obtain ⟨p', base', hp', hb', hwithin⟩ := h.mp ⟨p, base, hp, hb, .inr hext⟩
    obtain rfl : p = p' := Option.some.inj (hp.symm.trans hp')
    obtain rfl : base = base' := Option.some.inj (hb.symm.trans hb')
    exact CanonicalPath.not_extends_of_within hwithin hext
  · intro h
    constructor
    · rintro ⟨p, base, hp, hb, hwithin | hext⟩
      · exact ⟨p, base, hp, hb, hwithin⟩
      · exact absurd hext (h p base hp hb)
    · rintro ⟨p, base, hp, hb, hwithin⟩
      exact ⟨p, base, hp, hb, .inl hwithin⟩

/-- A file system with the directories `/a/b` and `/a/bc`, and nothing else that is asked for. -/
def siblingsRealpath (s : Bytes) : Option CanonicalPath :=
  if s = ascii "/a/b" then some ⟨[ascii "a", ascii "b"], by decide, by decide, by decide⟩
  else if s = ascii "/a/bc" then some ⟨[ascii "a", ascii "bc"], by decide, by decide, by decide⟩
  else none

/-- The sibling of the base counts as inside. -/
theorem sibling_isWithinDirectory :
    isWithinDirectory siblingsRealpath (ascii "/a/bc") (ascii "/a/b") = 1 ∧
      ¬ Confined siblingsRealpath (ascii "/a/bc") (ascii "/a/b") := by
  refine ⟨by decide, ?_⟩
  rintro ⟨p, base, hp, hb, hwithin⟩
  obtain rfl := Option.some.inj hp
  obtain rfl := Option.some.inj hb
  exact absurd hwithin (by unfold Within; decide)

/-! ## 3. `validate_hash` -/

/-- `isxdigit` in the C locale. -/
def isxdigit (c : UInt8) : Bool := (48 ≤ c && c ≤ 57) || (65 ≤ c && c ≤ 70) || (97 ≤ c && c ≤ 102)

/-- What `SET_ERROR` leaves in `g_last_error`, less the place in the source. -/
structure LastError where
  code : Nat
  message : Bytes
  deriving DecidableEq

def setError (code : Nat) (message : Bytes) : LastError := ⟨code, snprintf 512 message⟩

def errInvalidHash : Nat := 13

/-- 0 is `ok`, -1 an error. -/
def validateHash : Option Bytes → Except LastError Unit
  | none => .error (setError errInvalidHash (ascii "Hash is NULL"))
  | some hash =>
    if hash.length ≠ 64 then
      .error (setError errInvalidHash
        (ascii "Invalid hash length: " ++ decimal hash.length ++ ascii " (expected 64)"))
    else
      match hash.find? fun c => !isxdigit c with
      | some c =>
        .error (setError errInvalidHash
          (ascii "Hash contains non-hexadecimal character: '" ++ [c] ++ ascii "'"))
      | none => .ok ()

/-- The file is not looked at. -/
def verifyFileChecksum (_filepath : Bytes) (expectedHash : Option Bytes) : Except LastError Unit :=
  validateHash expectedHash

theorem validateHash_ok {hash : Bytes} :
    validateHash (some hash) = .ok () ↔ hash.length = 64 ∧ ∀ c ∈ hash, isxdigit c := by
  rw [validateHash]
  by_cases hlen : hash.length = 64
  · rw [if_neg (not_not_intro hlen)]
    cases hf : hash.find? fun c => !isxdigit c with
    | some c =>
      have hc := List.find?_some hf
      have hmem := List.mem_of_find?_eq_some hf
      constructor
      · rintro ⟨⟩
      · intro h
        rw [h.2 c hmem] at hc
        cases hc
    | none =>
      refine ⟨fun _ => ⟨hlen, fun c hc => ?_⟩, fun _ => rfl⟩
      simpa using List.find?_eq_none.mp hf c hc
  · rw [if_pos hlen]
    constructor
    · rintro ⟨⟩
    · exact fun h => absurd h.1 hlen

end ReproVM
