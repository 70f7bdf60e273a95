import Mathlib.Data.Rat.Cast.Order
import ValyriaApp.Lib.Double

/-! # JavaScript numbers and JSON values

A number is a rational, an infinity or `NaN`; what the code computes from
numbers is rounded to a double, and so is the literal of a text that it reads as
a number. `Option Json` stands for a property that may be `undefined`. `Number`
follows the coercion rules for every JSON value.
-/

namespace ValyriaApp

inductive Num where
  | nan
  | inf (neg : Bool)
  | fin (q : ℚ)
  deriving DecidableEq

namespace Num

instance : NatCast Num := ⟨fun n => fin n⟩
instance (n : ℕ) : OfNat Num n := ⟨((n : ℕ) : Num)⟩

/-- The operator `<`: false whenever `NaN` is involved. -/
def blt : Num → Num → Bool
  | fin a, fin b => decide (a < b)
  | fin _, inf neg => !neg
  | inf neg, fin _ => neg
  | inf n, inf m => n && !m
  | _, _ => false

/-- The operator `===` on numbers. -/
def strictEq (a b : Num) : Bool := decide (a = b ∧ a ≠ nan)

/-- The double nearest to a rational; an integer of 53 bits is one itself. -/
def ofRat (q : ℚ) : Num :=
  if q.den = 1 ∧ q.num.natAbs ≤ 2 ^ 53 then fin q
  else if |Double.round q| < 2 ^ 1024 then fin (Double.round q) else inf (decide (q < 0))

/-- The double a literal stands for. -/
def toDouble : Num → Num
  | fin q => ofRat q
  | n => n

/-- The operator `+` on numbers. -/
def add : Num → Num → Num
  | fin a, fin b => ofRat (a + b)
  | fin _, inf n => inf n
  | inf n, fin _ => inf n
  | inf n, inf m => if n = m then inf n else nan
  | _, _ => nan

instance : LT Num := ⟨fun a b => a.blt b = true⟩
instance : DecidableLT Num := fun a b => inferInstanceAs (Decidable (a.blt b = true))
instance : Add Num := ⟨add⟩

/-- The operator `<=`. -/
instance : LE Num := ⟨fun a b => a < b ∨ a = b ∧ a ≠ nan⟩
instance : DecidableLE Num := fun a b => inferInstanceAs (Decidable (a < b ∨ a = b ∧ a ≠ nan))

/-- `Math.max` of two numbers. -/
def max (a b : Num) : Num :=
  if a = nan ∨ b = nan then nan else if a < b then b else a

def isFinite : Num → Bool
  | fin _ => true
  | _ => false

/-- `Number.isInteger`. -/
def isInteger : Num → Bool
  | fin q => q.isInt
  | _ => false

theorem natCast_def (n : ℕ) : (n : Num) = fin n := rfl

@[simp, norm_cast] theorem natCast_lt {a b : ℕ} : (a : Num) < b ↔ a < b := by
  change decide ((a : ℚ) < b) = true ↔ _
  rw [decide_eq_true_iff, Nat.cast_lt]

theorem ofRat_natCast {n : ℕ} (h : n ≤ 2 ^ 53) : ofRat n = n := if_pos ⟨rfl, h⟩

theorem ofRat_natCast_cases (n : ℕ) : ofRat n = inf false ∨ ∃ m : ℕ, ofRat n = m := by
  unfold ofRat
  split_ifs
  · exact .inr ⟨n, rfl⟩
  · obtain ⟨m, hm⟩ := Double.round_natCast n
    exact .inr ⟨m, congrArg fin hm⟩
  · rw [decide_eq_false (not_lt_of_ge n.cast_nonneg)]
    exact .inl rfl

theorem toDouble_natCast {n : ℕ} (h : n ≤ 2 ^ 53) : (n : Num).toDouble = n := ofRat_natCast h

theorem toDouble_toDouble (n : Num) : n.toDouble.toDouble = n.toDouble := by
  cases n with
  | nan => rfl
  | inf => rfl
  | fin q =>
    change (ofRat q).toDouble = ofRat q
    unfold ofRat
    split_ifs with hexact hbound
    · exact if_pos hexact
    · have hround : Double.round (Double.round q) = Double.round q :=
        Double.round_of_isDouble (Double.isDouble_round q)
      change ofRat (Double.round q) = _
      unfold ofRat
      rw [hround, if_pos hbound, ite_self]
    · rfl

theorem natCast_add_one {n : ℕ} (h : n < 2 ^ 53) : (n : Num) + 1 = ((n + 1 : ℕ) : Num) := by
  change ofRat ((n : ℚ) + (1 : ℕ)) = _
  rw [← Nat.cast_add, ofRat_natCast h]

@[simp, norm_cast] theorem natCast_inj {a b : ℕ} : (a : Num) = b ↔ a = b := by
  rw [natCast_def, natCast_def, fin.injEq, Nat.cast_inj]

/-- A double above `m` is not below `m + 1`, even where that is rounded. -/
theorem not_natCast_lt_add_one {m n : ℕ} (hn : (n : Num).toDouble = n) (h : m < n) :
    ¬ (n : Num) < (m : Num) + 1 := by
  have hle : Double.round ((m + 1 : ℕ) : ℚ) ≤ Double.round (n : ℚ) :=
    Double.round_mono (Nat.cast_le.mpr h)
  have hround : (n : ℚ) = Double.round n ∧ |Double.round (n : ℚ)| < 2 ^ 1024 ∨ n ≤ 2 ^ 53 := by
    change ofRat n = fin n at hn
    unfold ofRat at hn
    split_ifs at hn with hexact hbound
    · exact .inr hexact.2
    · exact .inl ⟨(fin.inj hn).symm, hbound⟩
  rcases hround with ⟨hn, hbound⟩ | hsmall
  · have hpos : 0 ≤ Double.round ((m + 1 : ℕ) : ℚ) :=
      Double.round_zero ▸ Double.round_mono (Nat.cast_nonneg _)
    have hsum : (m : Num) + 1 = ofRat ((m + 1 : ℕ) : ℚ) :=
      congrArg ofRat (Nat.cast_add m 1).symm
    rw [hsum, ofRat]
    split_ifs with hexact
    · exact natCast_lt.not.mpr (Nat.not_lt.mpr h)
    · change ¬ decide ((n : ℚ) < _) = true
      rw [decide_eq_true_iff, hn]
      exact not_lt_of_ge hle
    · rename_i hover
      rw [abs_of_nonneg hpos] at hover
      rw [abs_of_nonneg (hpos.trans hle)] at hbound
      exact absurd (hle.trans_lt hbound) hover
  · rw [natCast_add_one (h.trans_le hsmall), natCast_lt]
    exact Nat.not_lt.mpr h

theorem lt_def {a b : Num} : a < b ↔ a.blt b = true := Iff.rfl

theorem lt_trans {a b c : Num} (hab : a < b) (hbc : b < c) : a < c := by
  rw [lt_def] at hab hbc ⊢
  cases a <;> cases b <;> cases c <;> simp_all only [blt, decide_eq_true_eq, reduceCtorEq,
    Bool.and_eq_true, Bool.not_eq_true', Bool.not_false, Bool.and_self]
  exact hab.trans hbc

theorem lt_irrefl (a : Num) : ¬ a < a := by
  cases a <;> simp [lt_def, blt]

theorem lt_asymm {a b : Num} (h : a < b) : ¬ b < a := fun h' => lt_irrefl a (lt_trans h h')

theorem strictEq_eq_true {a b : Num} : a.strictEq b = true ↔ a = b ∧ a ≠ nan :=
  decide_eq_true_iff

@[simp, norm_cast] theorem natCast_le {a b : ℕ} : (a : Num) ≤ b ↔ a ≤ b := by
  change (a : Num) < b ∨ (a : Num) = b ∧ (a : Num) ≠ nan ↔ _
  rw [natCast_lt, natCast_inj, Nat.le_iff_lt_or_eq]
  simp [natCast_def]

/-- `Number` of a string of decimal digits. -/
def ofDigits (ds : List Char) : Num := ofRat (Nat.ofDigitChars 10 ds 0 : ℕ)

theorem ofDigits_toDigits {n : ℕ} (h : n < 2 ^ 53) : ofDigits (Nat.toDigits 10 n) = n := by
  rw [ofDigits, Nat.ofDigitChars_ten_toDigits, ofRat_natCast h.le]

theorem ofDigits_ne_nan (ds : List Char) : ofDigits ds ≠ nan := by
  rcases ofRat_natCast_cases (Nat.ofDigitChars 10 ds 0) with h | ⟨m, h⟩
  · simp [ofDigits, h]
  · simp [ofDigits, h, natCast_def]

theorem not_ofDigits_lt_zero (ds : List Char) : ¬ ofDigits ds < 0 := by
  rcases ofRat_natCast_cases (Nat.ofDigitChars 10 ds 0) with h | ⟨m, h⟩
  · rw [ofDigits, h]
    exact Bool.false_ne_true
  · rw [ofDigits, h]
    exact natCast_lt.not.mpr (Nat.not_lt_zero m)

/-- White space and line terminators, as `String.prototype.trim` removes them. -/
def isSpace (c : Char) : Bool :=
  c.toNat ∈ [0x9, 0xA, 0xB, 0xC, 0xD, 0x20, 0xA0, 0x1680, 0x2028, 0x2029, 0x202F, 0x205F, 0x3000,
    0xFEFF] || (0x2000 ≤ c.toNat && c.toNat ≤ 0x200A)

def trim (cs : List Char) : List Char :=
  ((cs.dropWhile isSpace).reverse.dropWhile isSpace).reverse

def digit? (c : Char) : Option ℕ :=
  if '0' ≤ c ∧ c ≤ '9' then some (c.toNat - '0'.toNat)
  else if 'a' ≤ c ∧ c ≤ 'z' then some (c.toNat - 'a'.toNat + 10)
  else if 'A' ≤ c ∧ c ≤ 'Z' then some (c.toNat - 'A'.toNat + 10)
  else none

/-- The value of a possibly empty digit string in the given base. -/
def digits? (base : ℕ) (cs : List Char) : Option ℕ :=
  cs.foldlM (fun n c => (digit? c).bind fun d => if d < base then some (n * base + d) else none) 0

def signed? {α : Type*} (neg : α → α) (parse : List Char → Option α) : List Char → Option α
  | '+' :: cs => parse cs
  | '-' :: cs => (parse cs).map neg
  | cs => parse cs

/-- The part of a decimal literal after the sign. -/
def decimal? (cs : List Char) : Option ℚ := do
  let (mantissa, exp) := cs.span fun c => c ≠ 'e' ∧ c ≠ 'E'
  let (whole, frac) := mantissa.span (· ≠ '.')
  let frac := frac.drop 1
  guard (whole ++ frac ≠ [])
  let m ← digits? 10 (whole ++ frac)
  let e : ℤ ← match exp with
    | [] => some 0
    | _ :: ds => signed? (- ·) (fun ds => if ds = [] then none else (digits? 10 ds).map (↑·)) ds
  return m * 10 ^ (e - frac.length)

/-- The numeric value of a string literal. -/
def ofString (s : String) : Num :=
  match trim s.toList with
  | [] => 0
  | '0' :: c :: cs =>
    match (if c ∈ ['x', 'X'] then some 16 else if c ∈ ['o', 'O'] then some 8
      else if c ∈ ['b', 'B'] then some 2 else none) with
    | some base => if cs = [] then nan else ((digits? base cs).map fun n => ofRat n).getD nan
    | none => ((decimal? ('0' :: c :: cs)).map ofRat).getD nan
  | cs =>
    if cs = "Infinity".toList ∨ cs = "+Infinity".toList then inf false
    else if cs = "-Infinity".toList then inf true
    else ((signed? (- ·) decimal? cs).map ofRat).getD nan

end Num

/-- A JSON value; the keys of an object are distinct. -/
inductive Json where
  | null
  | bool (b : Bool)
  | num (n : Num)
  | str (s : String)
  | arr (xs : List Json)
  | obj (fields : List (String × Json))

namespace Json

/-- Property access; only objects have the properties the code reads. -/
def get? (key : String) : Json → Option Json
  | obj fields => (fields.find? fun f => f.1 = key).map Prod.snd
  | _ => none

/-- The value when `typeof` it is `"string"`. -/
def str? : Json → Option String
  | str s => some s
  | _ => none

/-- The value when `typeof` it is `"number"`. -/
def num? : Json → Option Num
  | num n => some n.toDouble
  | _ => none

/-- `Number`: an array is coerced through its string, so a single element counts by itself. -/
def toNumber : Json → Num
  | null => 0
  | bool b => if b then 1 else 0
  | num n => n.toDouble
  | str s => Num.ofString s
  | arr [] => 0
  | arr [bool _] => Num.nan
  | arr [x] => x.toNumber
  | arr _ => Num.nan
  | obj _ => Num.nan

end Json

end ValyriaApp
