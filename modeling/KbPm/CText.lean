/-
C texts: byte strings, decimal numbers, fixed character buffers.

* `cstr` — the C string at the start of a buffer;
* `decimal` — what `sprintf` prints for `%d`;
* `StrBuf` — the contents of a `char[STR_BUFFER_SIZE]`, a string that is free of
  NUL and shorter than the buffer;
* `Fault` — the ways in which a step of the service can end it.
-/
import Mathlib

namespace KbPm

/-- Bytes in memory, from a pointer on.  What lies behind the listed bytes reads
as NUL. -/
abbrev Text := List UInt8

/-- The bytes of an ASCII literal. -/
def str (s : String) : Text := s.toList.map fun c => c.toNat.toUInt8

/-- `#define STR_BUFFER_SIZE 512` (`process.h`, which `server.c` includes first) -/
abbrev strBufferSize : ℕ := 512

/-- `#define BUFFER_SIZE 40 * 1024` -/
abbrev bufferSize : ℕ := 40 * 1024

/-- `#define LIST_SIZE 256` -/
abbrev listSize : ℕ := 256

/-- What ends the service in the middle of a step. -/
inductive Fault
  /-- an access to `process_list[k]` outside the array -/
  | index (k : ℕ)
  /-- `strcpy` from a null `valuestring` -/
  | nullString
  /-- a text that is too long for the buffer it is copied into -/
  | overflow
  /-- `fgets` on the `FILE *` of a file that could not be opened -/
  | nullFile
  /-- a pointer that runs past the end of its buffer -/
  | overrun
  /-- the use of the result of a function that fell off its end -/
  | noReturn
  /-- `kill` with a pid that is not positive: the signal goes to whole groups -/
  | killGroup
  /-- `fork` failed, and the service exits -/
  | forkFailed
  /-- a write behind the end of a block of the heap -/
  | heap
  /-- a recursion that the stack has no room for -/
  | stack
  deriving DecidableEq

/-- The C string at the start of a buffer. -/
def cstr (t : Text) : Text := t.takeWhile (· ≠ 0)

theorem zero_notMem_cstr (t : Text) : 0 ∉ cstr t := by
  intro h
  simpa using List.mem_takeWhile_imp h

theorem cstr_of_notMem {t : Text} (h : 0 ∉ t) : cstr t = t := by
  rw [cstr, List.takeWhile_eq_self_iff]
  intro b hb
  simpa using fun h0 : b = 0 => h (h0 ▸ hb)

theorem length_cstr_le (t : Text) : (cstr t).length ≤ t.length :=
  (List.takeWhile_prefix _).length_le

/-- The contents of a `char[STR_BUFFER_SIZE]` up to its NUL. -/
structure StrBuf where
  bytes : Text
  nulFree : 0 ∉ bytes
  fits : bytes.length < strBufferSize
  deriving DecidableEq

namespace StrBuf

/-- The buffer that starts with a NUL. -/
def empty : StrBuf := ⟨[], by simp, by simp⟩

instance : Inhabited StrBuf := ⟨empty⟩

@[ext] theorem ext {a b : StrBuf} (h : a.bytes = b.bytes) : a = b := by
  cases a
  cases b
  cases h
  rfl

theorem bytes_inj {a b : StrBuf} : a.bytes = b.bytes ↔ a = b :=
  ⟨ext, congrArg bytes⟩

/-- `strlen(buf) == 0` -/
def isEmpty (b : StrBuf) : Bool := b.bytes.isEmpty

theorem isEmpty_iff {b : StrBuf} : b.isEmpty = true ↔ b = empty := by
  rw [isEmpty, List.isEmpty_iff, ← bytes_inj]
  rfl

end StrBuf

/-- `strcpy` of a C string into a `char[STR_BUFFER_SIZE]`. -/
def strcpy (src : Text) : Except Fault StrBuf :=
  if h : (cstr src).length < strBufferSize then .ok ⟨cstr src, zero_notMem_cstr src, h⟩
  else .error .overflow

theorem strcpy_bytes (b : StrBuf) : strcpy b.bytes = .ok b := by
  have hb : cstr b.bytes = b.bytes := cstr_of_notMem b.nulFree
  rw [strcpy, dif_pos (by rw [hb]; exact b.fits)]
  simp only [hb]

/-- `c` is a decimal digit. -/
def isDigit (c : UInt8) : Bool := 48 ≤ c && c ≤ 57

/-- The decimal digits of a natural number, `0` as no digit at all. -/
def digitsOf (n : ℕ) : Text := (Nat.digits 10 n).reverse.map fun d => (48 + d).toUInt8

/-- `%d` -/
def decimal (n : ℤ) : Text :=
  if n = 0 then [48] else if n < 0 then 45 :: digitsOf n.natAbs else digitsOf n.natAbs

end KbPm
