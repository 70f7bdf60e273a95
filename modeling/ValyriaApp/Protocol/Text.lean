import Mathlib.Data.Int.Log
import Mathlib.Data.Rat.Floor
import ValyriaApp.Protocol.Json

/-! # Numbers and dates as text

A number is written with the fewest decimal digits that still read back as the
same binary floating-point value. A timestamp is shown as the day it falls on;
one outside the range of dates cannot be shown at all.
-/

namespace ValyriaApp

namespace Num

/-- Whether a decimal reads back as the positive double `x`: it lies within half the gap to the
next double, and half way counts when the significand is even. -/
def readsBack (x r : ℚ) : Bool :=
  let e : ℤ := Max.max (Int.log 2 x - 52) (-1074)
  let gap : ℚ := 2 ^ e
  let significand := ⌊x / gap⌋
  let below := if significand = 2 ^ 52 ∧ e > -1074 then gap / 4 else gap / 2
  let within (distance half : ℚ) := distance < half ∨ distance = half ∧ significand % 2 = 0
  if x ≤ r then decide (within (r - x) (gap / 2)) else decide (within (x - r) below)

/-- The decimals with `k` digits next to `x`, the closer one first. -/
def neighbours (x : ℚ) (k : ℕ) : List (ℕ × ℤ) :=
  let exponent := Int.log 10 x + 1 - k
  let scaled := x / 10 ^ exponent
  let low := ⌊scaled⌋.toNat
  let pair := if scaled - low ≤ 1 / 2 then [low, low + 1] else [low + 1, low]
  pair.map fun s => (s, exponent)

/-- The digits and the exponent of the shortest decimal that reads back as `x`. -/
def shortest (x : ℚ) : ℕ × ℤ :=
  ((List.range 17).findSome? fun i =>
    (neighbours x (i + 1)).find? fun d => readsBack x (d.1 * 10 ^ d.2)).getD (⌊x⌋.toNat, 0)

/-- `1` with its exponent for `10`: rounding up may leave one digit too many. -/
def trimTen : ℕ × ℤ → ℕ × ℤ
  | (10, e) => (1, e + 1)
  | d => d

/-- `Number::toString` of a positive double. -/
def positiveText (x : ℚ) : List Char :=
  let (s, exponent) := trimTen (shortest x)
  let digits := (Nat.repr s).toList
  let k : ℤ := digits.length
  let n := k + exponent
  if k ≤ n ∧ n ≤ 21 then digits ++ List.replicate (n - k).toNat '0'
  else if 0 < n ∧ n ≤ 21 then digits.take n.toNat ++ '.' :: digits.drop n.toNat
  else if -6 < n ∧ n ≤ 0 then ['0', '.'] ++ List.replicate (-n).toNat '0' ++ digits
  else
    let point := if digits.length = 1 then digits else digits.take 1 ++ '.' :: digits.drop 1
    let sign := if 0 ≤ n - 1 then '+' else '-'
    point ++ ['e', sign] ++ (Nat.repr (n - 1).natAbs).toList

/-- A number in a template string. -/
def text : Num → String
  | nan => "NaN"
  | inf neg => if neg then "-Infinity" else "Infinity"
  | fin q =>
    if q = 0 then "0"
    else if q < 0 then String.ofList ('-' :: positiveText (-q))
    else String.ofList (positiveText q)

example : [Num.text 3, Num.text (.fin (-5/2)), Num.text (.fin (2 ^ 70)),
    Num.text (.fin (3602879701896397 / 36028797018963968))] =
    ["3", "-2.5", "1.1805916207174113e+21", "0.1"] := by decide +kernel

end Num

/-! ## Days -/

/-- The proleptic Gregorian date of a day counted from 1970-01-01. -/
def civil (day : ℤ) : ℤ × ℕ × ℕ :=
  let z := day + 719468
  let era := z / 146097
  let doe := (z % 146097).toNat
  let yoe := (doe - doe / 1460 + doe / 36524 - doe / 146096) / 365
  let doy := doe - (365 * yoe + yoe / 4 - yoe / 100)
  let mp := (5 * doy + 2) / 153
  let month := if mp < 10 then mp + 3 else mp - 9
  let year := yoe + era * 400 + (if month ≤ 2 then 1 else 0)
  (year, month, doy - (153 * mp + 2) / 5 + 1)

def padded (width n : ℕ) : List Char :=
  let digits := (Nat.repr n).toList
  List.replicate (width - digits.length) '0' ++ digits

/-- `new Date(ts).toISOString().slice(0, 10)`; it throws when there is no such date. -/
def isoDay : Num → Option String
  | .fin q =>
    if |q| ≤ 8640000000000000 then
      let ms : ℤ := if q < 0 then ⌈q⌉ else ⌊q⌋
      let (year, month, day) := civil (ms / 86400000)
      let sign := if 0 ≤ year ∧ year ≤ 9999 then padded 4 year.natAbs
        else (if year < 0 then '-' else '+') :: padded 6 year.natAbs
      some (String.ofList ((sign ++ '-' :: padded 2 month ++ '-' :: padded 2 day).take 10))
    else none
  | _ => none

example : [isoDay 0, isoDay 951825600000, isoDay 1767225599999, isoDay .nan] =
    [some "1970-01-01", some "2000-02-29", some "2025-12-31", none] := by decide +kernel

/-! ## JSON text -/

/-- A character of a string literal as `JSON.stringify` escapes it. -/
def escaped (c : Char) : List Char :=
  match c with
  | '"' => ['\\', '"']
  | '\\' => ['\\', '\\']
  | '\n' => ['\\', 'n']
  | '\r' => ['\\', 'r']
  | '\t' => ['\\', 't']
  | '\x08' => ['\\', 'b']
  | '\x0c' => ['\\', 'f']
  | c =>
    if c.toNat < 32 then
      let digits := Nat.toDigits 16 c.toNat
      ['\\', 'u'] ++ List.replicate (4 - digits.length) '0' ++ digits
    else [c]

def quoted (text : String) : List Char := '"' :: text.toList.flatMap escaped ++ ['"']

namespace Json

mutual

/-- `JSON.stringify` with two blanks for each level; fields stand in the object's own order. -/
def pretty (indent : ℕ) : Json → List Char
  | null => "null".toList
  | bool b => (toString b).toList
  | num n => if n.isFinite then n.text.toList else "null".toList
  | str s => quoted s
  | arr [] => "[]".toList
  | arr (x :: xs) =>
    '[' :: prettyItems (indent + 2) (x :: xs) ++ '\n' :: List.replicate indent ' ' ++ [']']
  | obj [] => ['\x7b', '\x7d']
  | obj (f :: fs) =>
    '\x7b' :: prettyFields (indent + 2) (f :: fs) ++ '\n' :: List.replicate indent ' ' ++ ['\x7d']

def prettyItems (indent : ℕ) : List Json → List Char
  | [] => []
  | x :: xs =>
    '\n' :: List.replicate indent ' ' ++ pretty indent x ++ (if xs.isEmpty then [] else [',']) ++
      prettyItems indent xs

def prettyFields (indent : ℕ) : List (String × Json) → List Char
  | [] => []
  | (key, value) :: fields =>
    '\n' :: List.replicate indent ' ' ++ quoted key ++ [':', ' '] ++ pretty indent value ++
      (if fields.isEmpty then [] else [',']) ++ prettyFields indent fields

end

def stringify (value : Json) : String := String.ofList (value.pretty 0)

end Json

end ValyriaApp
