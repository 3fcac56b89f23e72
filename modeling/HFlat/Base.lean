/-
  Strings, decimal numbers and limits shared by the modules of the file system. A
  `std::string` is a list of characters, one `Char` for each byte.
-/
import Mathlib.Data.List.TakeWhile
import HFlat.Lib.Component

namespace HFlat

open HFlat.Lib

/-- A `std::string`. -/
abbrev Str := List Char

/-- A string literal as a `Str`. -/
def lit (s : String) : Str := s.toList

/-! ## Platform limits (`limits.h`, `sys/param.h`) and error numbers (`errno.h`) -/

/-- Length of a file name. -/
def NAME_MAX : Nat := 255

/-- Length of a path. -/
def PATH_MAX : Nat := 4096

/-- Number of symbolic links in a path. -/
def MAXSYMLINKS : Nat := 20

/-- Operation not permitted. -/
def EPERM : Int := 1

/-- No such file or directory. -/
def ENOENT : Int := 2

/-- Input/output error. -/
def EIO : Int := 5

/-- Try again. -/
def EAGAIN : Int := 11

/-- Permission denied. -/
def EACCES : Int := 13

/-- File exists. -/
def EEXIST : Int := 17

/-- Not a directory. -/
def ENOTDIR : Int := 20

/-- Invalid argument. -/
def EINVAL : Int := 22

/-- File too large. -/
def EFBIG : Int := 27

/-- File name too long. -/
def ENAMETOOLONG : Int := 36

/-- Too many levels of symbolic links. -/
def ELOOP : Int := 40

/-- Operation already in progress. -/
def EALREADY : Int := 114

/-! ## Decimal numbers -/

/-- `std::to_string` on a non-negative integer. -/
def toStr (n : Nat) : Str := Nat.toDigits 10 n

/-- `util::to_int64`: the decimal prefix of the string, `0` when there is none. -/
def toInt64 (s : Str) : Nat := Nat.ofDigitChars 10 (s.takeWhile Char.isDigit) 0

theorem isDigit_of_mem_toStr {n : Nat} {c : Char} (h : c ∈ toStr n) : c.isDigit = true :=
  Nat.isDigit_of_mem_toDigits (by decide) (by decide) h

theorem toInt64_toStr (n : Nat) : toInt64 (toStr n) = n := by
  unfold toInt64
  rw [List.takeWhile_eq_self_iff.mpr fun c hc => isDigit_of_mem_toStr hc]
  exact Nat.ofDigitChars_ten_toDigits

theorem toStr_inj {n m : Nat} (h : toStr n = toStr m) : n = m := by
  rw [← toInt64_toStr n, h, toInt64_toStr]

theorem not_mem_toStr {n : Nat} {c : Char} (hc : c.isDigit = false) : c ∉ toStr n := by
  intro h
  rw [isDigit_of_mem_toStr h] at hc
  exact absurd hc (by decide)

/-! ## User paths -/

/-- `p` lies at or below `q` in the directory tree (`/` itself is not above any other path here:
    no path has an empty component). -/
abbrev Under (q p : Str) : Prop := Within '/' q p

/-- A tail of a path: nothing, or `/` and more. -/
abbrev PathTail (r : Str) : Prop := Tail '/' r

end HFlat
