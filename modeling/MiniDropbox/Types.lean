/-
Bytes, C strings, tokens and the code the repository links against.

Machine integers are natural numbers; `sizeT`, `offT`, `intOf` and `viaInt` mark the
places where the width of a `size_t`, an `off_t` or an `int` matters. A C string is the list of
its bytes without the terminator, and `cString` reads one out of memory.

`Externals` collects what the sources call but do not contain: `uuid_unparse` of
libuuid and the SHA-256 of libcrypto, each with the documented facts the code
relies on as fields. `libraries` is the instance the real libraries give.
-/

import Mathlib.Data.List.Basic
import Mathlib.Tactic.IntervalCases
import MiniDropbox.Lib.Sha256

namespace MiniDropbox

abbrev Byte := UInt8

/-- A NUL-terminated string, without its terminator. -/
abbrev CStr := List Byte

/-- The bytes of a string literal of the sources. -/
def cstr (s : String) : CStr := s.toList.map fun c => UInt8.ofNat c.toNat

/-- The C string that starts at the beginning of a memory area. -/
def cString (memory : List Byte) : CStr := memory.takeWhile (· ≠ 0)

def slash : Byte := 47

def dot : Byte := 46

/-- What `snprintf` leaves in a buffer of `size` bytes. -/
def snprintf (size : Nat) (text : CStr) : CStr := text.take (size - 1)

def PATH_MAX : Nat := 4096

/-- Reduction of an unsigned 64-bit result. -/
def sizeT (n : Nat) : Nat := n % 2 ^ 64

/-- A `size_t` passed where an `off_t` is expected: `none` when the sign bit is
set, so that the offset is negative. -/
def offT (n : Nat) : Option Nat := if sizeT n < 2 ^ 63 then some (sizeT n) else none

/-- A `size_t` stored in an `int`. -/
def intOf (n : Nat) : Int := if n % 2 ^ 32 < 2 ^ 31 then (n % 2 ^ 32 : Nat) else (n % 2 ^ 32 : Nat) - 2 ^ 32

/-- A `size_t` stored in an `int` and passed on as a `size_t`. -/
def viaInt (n : Nat) : Nat :=
  if n % 2 ^ 32 < 2 ^ 31 then n % 2 ^ 32 else n % 2 ^ 32 + (2 ^ 64 - 2 ^ 32)

theorem sizeT_of_lt {n : Nat} (h : n < 2 ^ 64) : sizeT n = n := Nat.mod_eq_of_lt h

theorem offT_of_lt {n : Nat} (h : n < 2 ^ 63) : offT n = some n := by
  rw [offT, sizeT_of_lt (by omega), if_pos h]

theorem intOf_of_lt {n : Nat} (short : n < 2 ^ 31) : intOf n = n := by
  rw [intOf, Nat.mod_eq_of_lt (by omega), if_pos short]

theorem viaInt_of_lt {n : Nat} (h : n < 2 ^ 31) : viaInt n = n := by
  rw [viaInt, Nat.mod_eq_of_lt (by omega), if_pos h]

/-- Error numbers the handlers tell apart or report. -/
inductive Errno where
  | EEXIST | ENOENT | ENOTDIR | EISDIR | ENOTEMPTY | ENAMETOOLONG | ELOOP | EACCES | ENOSPC | EROFS | EBUSY | EINVAL
  deriving DecidableEq, Repr

/-- A `uuid_t`: sixteen bytes. -/
abbrev Token := { bytes : List Byte // bytes.length = 16 }

/-- The token held by sixteen bytes of memory. -/
def Token.ofBytes (memory : List Byte) : Token :=
  ⟨(memory ++ List.replicate 16 0).take 16, by simp⟩

def Token.null : Token := ⟨List.replicate 16 0, rfl⟩

theorem Token.ofBytes_append (t : Token) (rest : List Byte) :
    Token.ofBytes (t.1 ++ rest) = t := by
  apply Subtype.ext
  simp [Token.ofBytes, t.2]

/-- The lower-case hexadecimal digit of a number below sixteen. -/
def hexDigit (n : Nat) : Byte := if n < 10 then UInt8.ofNat (48 + n) else UInt8.ofNat (87 + n)

def hexBytes (bytes : List Byte) : CStr :=
  bytes.flatMap fun b => [hexDigit (b.toNat / 16), hexDigit (b.toNat % 16)]

/-- The text form of a token, `8-4-4-4-12` lower-case hexadecimal digits. -/
def unparse (t : Token) : CStr :=
  hexBytes (t.1.take 4) ++ 45 :: hexBytes ((t.1.drop 4).take 2) ++
    45 :: hexBytes ((t.1.drop 6).take 2) ++ 45 :: hexBytes ((t.1.drop 8).take 2) ++
    45 :: hexBytes (t.1.drop 10)

/-- A character `uuid_unparse` writes: a dash or a lower-case digit. -/
def IsUuidChar (c : Byte) : Prop := c = 45 ∨ (48 ≤ c ∧ c ≤ 57) ∨ (97 ≤ c ∧ c ≤ 102)

theorem hexDigit_isUuidChar {n : Nat} (h : n < 16) : IsUuidChar (hexDigit n) := by
  interval_cases n <;> simp [IsUuidChar, hexDigit]

theorem hexDigit_injective {m n : Nat} (hm : m < 16) (hn : n < 16)
    (h : hexDigit m = hexDigit n) : m = n := by
  interval_cases m <;> interval_cases n <;> revert h <;> decide

theorem length_hexBytes (bytes : List Byte) : (hexBytes bytes).length = 2 * bytes.length := by
  induction bytes with
  | nil => rfl
  | cons b bs ih =>
      rw [hexBytes] at ih ⊢
      simp only [List.flatMap_cons, List.length_append, List.length_cons, List.length_nil, ih]
      omega

theorem hexBytes_injective {xs ys : List Byte} (h : hexBytes xs = hexBytes ys) : xs = ys := by
  induction xs generalizing ys with
  | nil =>
      cases ys with
      | nil => rfl
      | cons y ys => simp [hexBytes] at h
  | cons x xs ih =>
      cases ys with
      | nil => simp [hexBytes] at h
      | cons y ys =>
          simp only [hexBytes, List.flatMap_cons, List.cons_append, List.nil_append,
            List.cons.injEq] at h
          obtain ⟨high, low, rest⟩ := h
          have hx := x.toNat_lt
          have hy := y.toNat_lt
          have high' := hexDigit_injective (by omega) (by omega) high
          have low' := hexDigit_injective (by omega) (by omega) low
          rw [ih rest, UInt8.toNat_inj.mp (show x.toNat = y.toNat by omega)]

theorem mem_hexBytes {bytes : List Byte} {c : Byte} (h : c ∈ hexBytes bytes) : IsUuidChar c := by
  obtain ⟨b, -, hc⟩ := List.mem_flatMap.mp h
  have hb := b.toNat_lt
  simp only [List.mem_cons, List.not_mem_nil, or_false] at hc
  rcases hc with rfl | rfl
  · exact hexDigit_isUuidChar (by omega)
  · exact hexDigit_isUuidChar (by omega)

theorem length_unparse (t : Token) : (unparse t).length = 36 := by
  simp [unparse, length_hexBytes, t.2]

theorem mem_unparse {t : Token} {c : Byte} (h : c ∈ unparse t) : IsUuidChar c := by
  simp only [unparse, List.mem_append, List.mem_cons] at h
  rcases h with (((h | rfl | h) | rfl | h) | rfl | h) | rfl | h
  all_goals first | exact mem_hexBytes h | exact Or.inl rfl

/-- The five fields of the text form. -/
theorem fields_append (l : List Byte) : l.take 4 ++ ((l.drop 4).take 2 ++ ((l.drop 6).take 2 ++
    ((l.drop 8).take 2 ++ l.drop 10))) = l := by
  have step : ∀ k, (l.drop k).take 2 ++ l.drop (k + 2) = l.drop k := fun k => by
    rw [← List.drop_drop, List.take_append_drop]
  rw [step 8, step 6, step 4, List.take_append_drop]

theorem unparse_injective : Function.Injective unparse := by
  intro s t h
  have hs := s.2
  have ht := t.2
  simp only [unparse, List.append_assoc, List.cons_append] at h
  obtain ⟨h1, h⟩ := List.append_inj h (by simp [length_hexBytes, hs, ht])
  obtain ⟨h2, h⟩ := List.append_inj (List.cons.inj h).2 (by simp [length_hexBytes, hs, ht])
  obtain ⟨h3, h⟩ := List.append_inj (List.cons.inj h).2 (by simp [length_hexBytes, hs, ht])
  obtain ⟨h4, h⟩ := List.append_inj (List.cons.inj h).2 (by simp [length_hexBytes, hs, ht])
  have h5 := hexBytes_injective (List.cons.inj h).2
  apply Subtype.ext
  rw [← fields_append s.1, ← fields_append t.1, hexBytes_injective h1, hexBytes_injective h2,
    hexBytes_injective h3, hexBytes_injective h4, h5]

/-- The code outside the repository, with the documented facts the sources use. -/
structure Externals where
  /-- `uuid_unparse` of libuuid. -/
  uuidUnparse : Token → CStr
  length_uuidUnparse : ∀ t, (uuidUnparse t).length = 36
  mem_uuidUnparse : ∀ t, ∀ c ∈ uuidUnparse t, IsUuidChar c
  uuidUnparse_injective : Function.Injective uuidUnparse
  /-- `EVP_sha256` of libcrypto, on a whole buffer. -/
  sha256 : List Byte → List Byte
  length_sha256 : ∀ data, (sha256 data).length = 32

/-- The libraries the program is linked with. -/
def libraries : Externals where
  uuidUnparse := unparse
  length_uuidUnparse := length_unparse
  mem_uuidUnparse := fun _ _ h => mem_unparse h
  uuidUnparse_injective := unparse_injective
  sha256 := Sha256.digest
  length_sha256 := Sha256.length_digest

end MiniDropbox
