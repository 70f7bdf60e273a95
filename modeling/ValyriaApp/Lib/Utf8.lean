import Mathlib.Data.Nat.Notation

/-! # UTF-8 with replacement

Decoding that never fails: a byte that starts no character and a character that
is cut short become one replacement character, and decoding goes on at the
first byte that does not continue it. Encoded text is decoded to itself.
-/

namespace ValyriaApp.Lib.Utf8

/-- The bytes of an ASCII text. -/
def ascii (cs : List Char) : List UInt8 := cs.map fun c => UInt8.ofNat c.toNat

/-- A character whose first bytes are read: how many are to come, in which range the next one must
be, and the bits so far. -/
structure Pending where
  count : ℕ
  lo : ℕ
  hi : ℕ
  bits : ℕ

def replacement : Char := Char.ofNat 0xFFFD

def lead (b : ℕ) : Option Pending :=
  if 0xC2 ≤ b ∧ b ≤ 0xDF then some ⟨1, 0x80, 0xBF, b - 0xC0⟩
  else if b = 0xE0 then some ⟨2, 0xA0, 0xBF, 0⟩
  else if 0xE1 ≤ b ∧ b ≤ 0xEF then some ⟨2, 0x80, if b = 0xED then 0x9F else 0xBF, b - 0xE0⟩
  else if b = 0xF0 then some ⟨3, 0x90, 0xBF, 0⟩
  else if 0xF1 ≤ b ∧ b ≤ 0xF4 then some ⟨3, 0x80, if b = 0xF4 then 0x8F else 0xBF, b - 0xF0⟩
  else none

def start (b : ℕ) : List Char × Option Pending :=
  if b < 0x80 then ([Char.ofNat b], none)
  else match lead b with
    | some p => ([], some p)
    | none => ([replacement], none)

def next : Option Pending → ℕ → List Char × Option Pending
  | none, b => start b
  | some p, b =>
    if p.lo ≤ b ∧ b ≤ p.hi then
      let bits := p.bits * 64 + (b - 0x80)
      if p.count = 1 then ([Char.ofNat bits], none)
      else ([], some ⟨p.count - 1, 0x80, 0xBF, bits⟩)
    else (replacement :: (start b).1, (start b).2)

def decodeFrom : Option Pending → List UInt8 → List Char
  | none, [] => []
  | some _, [] => [replacement]
  | p, b :: bs => (next p b.toNat).1 ++ decodeFrom (next p b.toNat).2 bs

def fromUtf8Lossy (bs : List UInt8) : List Char := decodeFrom none bs

variable {cs : List Char}

theorem toNat_ofNat {c : Char} (h : c.toNat < 128) : (UInt8.ofNat c.toNat).toNat = c.toNat := by
  rw [UInt8.toNat_ofNat']
  omega

theorem fromUtf8Lossy_ascii (h : ∀ c ∈ cs, c.toNat < 128) : fromUtf8Lossy (ascii cs) = cs := by
  induction cs with
  | nil => rfl
  | cons c cs ih =>
    have hc := h c List.mem_cons_self
    have hcs := ih fun d hd => h d (List.mem_cons_of_mem c hd)
    rw [fromUtf8Lossy, ascii] at hcs
    simp [fromUtf8Lossy, ascii, decodeFrom, next, start, toNat_ofNat hc, hc, hcs]

/-! ## Encoded text -/

def encode (cs : List Char) : List UInt8 := cs.flatMap String.utf8EncodeChar

variable {b : UInt8} {bs : List UInt8} {p : Pending} {c : Char}

@[simp] theorem encode_nil : encode [] = [] := rfl

@[simp] theorem encode_cons : encode (c :: cs) = String.utf8EncodeChar c ++ encode cs := rfl

theorem encode_append {cs' : List Char} : encode (cs ++ cs') = encode cs ++ encode cs' :=
  List.flatMap_append

theorem toNat_ofNat_byte {n : ℕ} (h : n < 256) : (UInt8.ofNat n).toNat = n := by
  rw [UInt8.toNat_ofNat']
  omega

theorem ofNat_eq {n : ℕ} (h : n = c.toNat) : Char.ofNat n = c := by
  rw [h, Char.ofNat_toNat]

section Sequence

variable {n v : ℕ}

theorem decodeFrom_lead (hlow : 0x80 ≤ n) (hbyte : n < 256) (hlead : lead n = some p) :
    decodeFrom none (UInt8.ofNat n :: bs) = decodeFrom (some p) bs := by
  simp [decodeFrom, next, start, toNat_ofNat_byte hbyte, hlead, Nat.not_lt.mpr hlow]

/-- A byte that continues a character adds six bits. -/
theorem decodeFrom_more (hcount : p.count ≠ 1) (hlo : p.lo ≤ v % 0x40 + 0x80)
    (hhi : v % 0x40 + 0x80 ≤ p.hi) :
    decodeFrom (some p) (UInt8.ofNat (v % 0x40 + 0x80) :: bs) =
      decodeFrom (some ⟨p.count - 1, 0x80, 0xBF, p.bits * 64 + v % 0x40⟩) bs := by
  rw [decodeFrom, next, toNat_ofNat_byte (by omega), if_pos ⟨hlo, hhi⟩]
  simp [hcount]

theorem decodeFrom_last (hcount : p.count = 1) (hlo : p.lo ≤ v % 0x40 + 0x80)
    (hhi : v % 0x40 + 0x80 ≤ p.hi) :
    decodeFrom (some p) (UInt8.ofNat (v % 0x40 + 0x80) :: bs) =
      Char.ofNat (p.bits * 64 + v % 0x40) :: decodeFrom none bs := by
  rw [decodeFrom, next, toNat_ofNat_byte (by omega), if_pos ⟨hlo, hhi⟩]
  simp [hcount]

theorem lead_of_two (hlo : 0x80 ≤ v) (hhi : v < 0x800) :
    lead (v / 64 % 0x20 + 0xc0) = some ⟨1, 0x80, 0xBF, v / 64⟩ := by
  rw [lead, if_pos (by omega), Option.some.injEq, Pending.mk.injEq]
  exact ⟨rfl, rfl, rfl, by omega⟩

/-- The bounds on the second byte keep out what fewer bytes encode and the surrogates. -/
theorem exists_lead_of_three (hlo : 0x800 ≤ v) (hhi : v < 0x10000)
    (hvalid : v < 0xD800 ∨ 0xDFFF < v) :
    ∃ p, lead (v / 4096 % 0x10 + 0xe0) = some p ∧ p.count = 2 ∧
      p.lo ≤ v / 64 % 0x40 + 0x80 ∧ v / 64 % 0x40 + 0x80 ≤ p.hi ∧ p.bits = v / 4096 := by
  rw [lead, if_neg (by omega)]
  by_cases h0 : v / 4096 % 0x10 + 0xe0 = 0xE0
  · rw [if_pos h0]
    exact ⟨_, rfl, rfl, by simp only; omega, by simp only; omega, by simp only; omega⟩
  · rw [if_neg h0, if_pos (by omega)]
    refine ⟨_, rfl, rfl, by simp only; omega, ?_, by simp only; omega⟩
    simp only
    split <;> omega

theorem exists_lead_of_four (hlo : 0x10000 ≤ v) (hhi : v < 0x110000) :
    ∃ p, lead (v / 262144 % 0x08 + 0xf0) = some p ∧ p.count = 3 ∧
      p.lo ≤ v / 4096 % 0x40 + 0x80 ∧ v / 4096 % 0x40 + 0x80 ≤ p.hi ∧ p.bits = v / 262144 := by
  rw [lead, if_neg (by omega), if_neg (by omega), if_neg (by omega)]
  by_cases h0 : v / 262144 % 0x08 + 0xf0 = 0xF0
  · rw [if_pos h0]
    exact ⟨_, rfl, rfl, by simp only; omega, by simp only; omega, by simp only; omega⟩
  · rw [if_neg h0, if_pos (by omega)]
    refine ⟨_, rfl, rfl, by simp only; omega, ?_, by simp only; omega⟩
    simp only
    split <;> omega

end Sequence

/-- A character is decoded from its encoding, whatever follows. -/
theorem decodeFrom_utf8EncodeChar (c : Char) (bs : List UInt8) :
    decodeFrom none (String.utf8EncodeChar c ++ bs) = c :: decodeFrom none bs := by
  have hvalid : c.toNat < 0xD800 ∨ (0xDFFF < c.toNat ∧ c.toNat < 0x110000) := c.valid
  have hn : c.val.toNat = c.toNat := rfl
  unfold String.utf8EncodeChar
  simp only [hn]
  generalize hv : c.toNat = v at hvalid
  split
  · next h1 =>
    have hb := toNat_ofNat_byte (n := v) (by omega)
    have hlt : v < 0x80 := by omega
    simp [decodeFrom, next, start, hb, hlt, ofNat_eq hv.symm]
  split
  · next h1 h2 =>
    have hlead := lead_of_two (v := v) (by omega) (by omega)
    rw [List.cons_append, List.cons_append, List.nil_append,
      decodeFrom_lead (by omega) (by omega) hlead,
      decodeFrom_last rfl (by simp only; omega) (by simp only; omega), ofNat_eq]
    simp only
    omega
  split
  · next h1 h2 h3 =>
    obtain ⟨p, hlead, hcount, hlo, hhi, hbits⟩ :=
      exists_lead_of_three (v := v) (by omega) (by omega) (by omega)
    rw [List.cons_append, List.cons_append, List.cons_append, List.nil_append,
      decodeFrom_lead (by omega) (by omega) hlead, decodeFrom_more (by omega) hlo hhi,
      decodeFrom_last (by simp [hcount]) (by simp only; omega) (by simp only; omega), ofNat_eq]
    simp only
    omega
  · next h1 h2 h3 =>
    obtain ⟨p, hlead, hcount, hlo, hhi, hbits⟩ :=
      exists_lead_of_four (v := v) (by omega) (by omega)
    rw [List.cons_append, List.cons_append, List.cons_append, List.cons_append, List.nil_append,
      decodeFrom_lead (by omega) (by omega) hlead, decodeFrom_more (by omega) hlo hhi,
      decodeFrom_more (by simp [hcount]) (by simp only; omega) (by simp only; omega),
      decodeFrom_last (by simp [hcount]) (by simp only; omega) (by simp only; omega), ofNat_eq]
    simp only
    omega

theorem fromUtf8Lossy_encode (cs : List Char) : fromUtf8Lossy (encode cs) = cs := by
  induction cs with
  | nil => rfl
  | cons c cs ih =>
    rw [fromUtf8Lossy, encode_cons, decodeFrom_utf8EncodeChar]
    exact congrArg (c :: ·) ih

theorem encode_injective : Function.Injective encode :=
  Function.LeftInverse.injective fromUtf8Lossy_encode

/-- An ASCII byte stands in the encoding of its own character only. -/
theorem mem_utf8EncodeChar_iff (hb : b.toNat < 128) :
    b ∈ String.utf8EncodeChar c ↔ c.toNat = b.toNat := by
  have hvalid : c.toNat < 0x110000 := by
    have hvalid : c.toNat < 0xD800 ∨ (0xDFFF < c.toNat ∧ c.toNat < 0x110000) := c.valid
    omega
  have hn : c.val.toNat = c.toNat := rfl
  unfold String.utf8EncodeChar
  simp only [hn]
  generalize c.toNat = v at hvalid
  have hbyte : ∀ n, 128 ≤ n → n < 256 → b ≠ UInt8.ofNat n := by
    rintro n hlo hhi rfl
    rw [toNat_ofNat_byte hhi] at hb
    omega
  split
  · next h1 =>
    rw [List.mem_singleton]
    constructor
    · rintro rfl
      exact (toNat_ofNat_byte (by omega)).symm
    · rintro rfl
      exact UInt8.ofNat_toNat.symm
  split
  · refine iff_of_false ?_ (by omega)
    simp only [List.mem_cons, List.not_mem_nil, or_false, not_or]
    exact ⟨hbyte _ (by omega) (by omega), hbyte _ (by omega) (by omega)⟩
  split
  · refine iff_of_false ?_ (by omega)
    simp only [List.mem_cons, List.not_mem_nil, or_false, not_or]
    exact ⟨hbyte _ (by omega) (by omega), hbyte _ (by omega) (by omega),
      hbyte _ (by omega) (by omega)⟩
  · refine iff_of_false ?_ (by omega)
    simp only [List.mem_cons, List.not_mem_nil, or_false, not_or]
    exact ⟨hbyte _ (by omega) (by omega), hbyte _ (by omega) (by omega),
      hbyte _ (by omega) (by omega), hbyte _ (by omega) (by omega)⟩

theorem mem_encode_iff (hb : c.toNat < 128) : UInt8.ofNat c.toNat ∈ encode cs ↔ c ∈ cs := by
  have hbyte := toNat_ofNat hb
  rw [encode, List.mem_flatMap]
  constructor
  · rintro ⟨d, hd, hmem⟩
    rw [mem_utf8EncodeChar_iff (by omega), hbyte] at hmem
    rwa [← Char.toNat_inj.mp hmem]
  · intro h
    exact ⟨c, h, (mem_utf8EncodeChar_iff (by omega)).mpr hbyte.symm⟩

end ValyriaApp.Lib.Utf8
