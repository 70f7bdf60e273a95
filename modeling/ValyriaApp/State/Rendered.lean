import Mathlib.Data.List.TakeWhile
import ValyriaApp.Lib.Marker
import ValyriaApp.Protocol.Decimal
import ValyriaApp.State.Activity

/-! # The rendered envelope of a command

Core renders a shell command as a head, its output behind one marker line and
its error output behind another. The parser cuts at the first output marker and
at the last error marker: it gives back every output, also one that holds the
markers, as long as the head and the error output hold none of their own.
-/

namespace ValyriaApp

open Marker

variable {w text head out err : List Char} {i : ℕ}

/-! ## Searching -/

theorem indexOf?_eq_some (hw : w ≠ []) :
    indexOf? w text = some i ↔ StandsAt w text i ∧ ∀ j < i, ¬ StandsAt w text j := by
  rw [indexOf?, List.find?_range_eq_some]
  simp only [List.isPrefixOf_iff_prefix, List.mem_range, Bool.not_eq_true']
  constructor
  · rintro ⟨hi, -, hfirst⟩
    refine ⟨hi, fun j hj hstands => ?_⟩
    rw [StandsAt, ← List.isPrefixOf_iff_prefix, hfirst j hj] at hstands
    cases hstands
  · rintro ⟨hi, hfirst⟩
    refine ⟨hi, ?_, fun j hj => ?_⟩
    · have := StandsAt.le_length hi hw
      omega
    · rw [← Bool.not_eq_true, List.isPrefixOf_iff_prefix]
      exact hfirst j hj

theorem mem_before_iff {R : ℕ → ℕ → Prop} (hR : ∀ a b, R a b → ¬ R b a) {before after : List ℕ}
    {j : ℕ} (h : (before ++ i :: after).Pairwise R) :
    j ∈ before ↔ j ∈ before ++ i :: after ∧ R j i := by
  rw [List.pairwise_append, List.pairwise_cons] at h
  obtain ⟨-, ⟨hafter, -⟩, hbefore⟩ := h
  rw [List.mem_append, List.mem_cons]
  constructor
  · intro hj
    exact ⟨.inl hj, hbefore j hj i List.mem_cons_self⟩
  · rintro ⟨hj | rfl | hj, hlt⟩
    · exact hj
    · exact absurd hlt (hR j j hlt)
    · exact absurd hlt (hR i j (hafter j hj))

theorem lastIndexOf?_eq_some (hw : w ≠ []) :
    lastIndexOf? w text = some i ↔ StandsAt w text i ∧ ∀ j, i < j → ¬ StandsAt w text j := by
  have hdesc : (List.range (text.length + 1)).reverse.Pairwise (· > ·) :=
    List.pairwise_reverse.mpr List.pairwise_lt_range
  have hmem {j : ℕ} (h : StandsAt w text j) : j ∈ (List.range (text.length + 1)).reverse := by
    have := h.le_length hw
    rw [List.mem_reverse, List.mem_range]
    omega
  have hasymm (a b : ℕ) (h : a > b) : ¬ b > a := lt_asymm h
  rw [lastIndexOf?, List.find?_eq_some_iff_append]
  simp only [List.isPrefixOf_iff_prefix, Bool.not_eq_true', ← Bool.not_eq_true]
  constructor
  · rintro ⟨hi, before, after, hrange, hlater⟩
    refine ⟨hi, fun j hij hstands => ?_⟩
    rw [hrange] at hdesc
    have hj := (mem_before_iff hasymm hdesc).mpr ⟨hrange ▸ hmem hstands, hij⟩
    exact hlater j hj hstands
  · rintro ⟨hi, hlast⟩
    obtain ⟨before, after, hrange⟩ := List.append_of_mem (hmem hi)
    rw [hrange] at hdesc
    exact ⟨hi, before, after, hrange, fun j hj =>
      hlast j ((mem_before_iff hasymm hdesc).mp hj).2⟩

theorem findSome?_range_eq_some {α : Type*} {f : ℕ → Option α} {n : ℕ} {a : α} :
    (List.range n).findSome? f = some a ↔ ∃ i < n, f i = some a ∧ ∀ j < i, f j = none := by
  have hasc : (List.range n).Pairwise (· < ·) := List.pairwise_lt_range
  rw [List.findSome?_eq_some_iff]
  constructor
  · rintro ⟨before, i, after, hrange, hi, hearlier⟩
    have hlt : i < n := List.mem_range.mp (hrange ▸ by simp)
    refine ⟨i, hlt, hi, fun j hj => hearlier j ?_⟩
    rw [hrange] at hasc
    exact (mem_before_iff (fun _ _ => lt_asymm) hasc).mpr
      ⟨hrange ▸ List.mem_range.mpr (hj.trans hlt), hj⟩
  · rintro ⟨i, hlt, hi, hearlier⟩
    obtain ⟨before, after, hrange⟩ := List.append_of_mem (List.mem_range.mpr hlt)
    rw [hrange] at hasc
    exact ⟨before, i, after, hrange, hi, fun j hj =>
      hearlier j ((mem_before_iff (fun _ _ => lt_asymm) hasc).mp hj).2⟩

/-! ## The exit code -/

/-- The text begins with `exit=Some(n)`, where `n` is a sequence of digits with or without a
minus sign. -/
def ExitNote (sign digits text : List Char) : Prop :=
  (sign = [] ∨ sign = ['-']) ∧ digits ≠ [] ∧ (∀ c ∈ digits, c.isDigit) ∧
    ∃ rest, text = "exit=Some(".toList ++ (sign ++ digits ++ ')' :: rest)

/-- What a head says of the exit code, given what number stands for an integer: the number of its
first note, `none` when it has none. -/
def ReportsExit (numeral : ℤ → Num) (head : List Char) : Option Num → Prop
  | none => ∀ i sign digits, ¬ ExitNote sign digits (head.drop i)
  | some code => ∃ i sign digits, ExitNote sign digits (head.drop i) ∧
      (∀ j < i, ∀ sign' digits', ¬ ExitNote sign' digits' (head.drop j)) ∧
      code = numeral (Num.intValue sign digits)

/-- The double nearest to an integer. -/
def nearestDouble (n : ℤ) : Num := Num.ofRat n

theorem nearest_nearestDouble {n : ℤ} {q : ℚ} (h : nearestDouble n = .fin q) :
    Double.IsDouble q ∧ ∀ d, Double.IsDouble d → |(n : ℚ) - q| ≤ |n - d| := by
  rw [nearestDouble, Num.ofRat] at h
  by_cases hsmall : (n : ℚ).den = 1 ∧ (n : ℚ).num.natAbs ≤ 2 ^ 53
  · rw [if_pos hsmall] at h
    obtain rfl := Num.fin.inj h
    refine ⟨Double.isDouble_intCast ?_, fun d _ => ?_⟩
    · rw [Int.abs_eq_natAbs]
      exact_mod_cast hsmall.2
    · rw [sub_self, abs_zero]
      exact abs_nonneg _
  · rw [if_neg hsmall] at h
    by_cases hfinite : |Double.round n| < 2 ^ 1024
    · rw [if_pos hfinite] at h
      obtain rfl := Num.fin.inj h
      exact ⟨Double.isDouble_round _, fun d hd => Double.abs_sub_round_le hd⟩
    · rw [if_neg hfinite] at h
      cases h

theorem sign_cases (text : List Char) :
    (text.take 1).filter (· = '-') = [] ∨
      (text.take 1).filter (· = '-') = ['-'] ∧ text.take 1 = ['-'] := by
  cases text with
  | nil => simp
  | cons c text => by_cases hc : c = '-' <;> simp [hc]

theorem exitCodeHere_eq_some {n : List Char} :
    exitCodeHere text = some n ↔ ∃ sign digits, n = sign ++ digits ∧ ExitNote sign digits text := by
  have hparen : Char.isDigit ')' = false := by decide
  simp only [exitCodeHere, Option.ite_none_right_eq_some, List.isPrefixOf_iff_prefix]
  constructor
  · rintro ⟨⟨rest, rfl⟩, ⟨hdigits, hclose⟩, hn⟩
    rw [List.drop_left] at hdigits hclose hn
    generalize hsign : (rest.take 1).filter (· = '-') = sign at hdigits hclose hn
    generalize hds : (rest.drop sign.length).takeWhile Char.isDigit = digits at hdigits hclose hn
    obtain rfl := Option.some.inj hn
    obtain ⟨tail, htail⟩ := List.head?_eq_some_iff.mp hclose
    have hrest : rest = sign ++ rest.drop sign.length := by
      rcases sign_cases rest with h | ⟨h, htake⟩
      · simp [← hsign, h]
      · have hlen : sign.length = 1 := by simp [← hsign, h]
        rw [hlen, ← hsign, h, ← htake, List.take_append_drop]
    have hdrop : rest.drop sign.length = digits ++ ')' :: tail := by
      have hprefix : digits <+: rest.drop sign.length := hds ▸ List.takeWhile_prefix _
      rw [← htail, ← List.drop_drop]
      exact (List.prefix_iff_eq_append.mp hprefix).symm
    refine ⟨sign, digits, rfl, ?_, hdigits, ?_, tail, ?_⟩
    · rcases sign_cases rest with h | ⟨h, -⟩
      · exact .inl (hsign.symm.trans h)
      · exact .inr (hsign.symm.trans h)
    · intro c hc
      exact List.mem_takeWhile_imp (hds ▸ hc)
    · rw [List.append_assoc, ← hdrop, ← hrest]
  · rintro ⟨sign, digits, rfl, hsign, hne, hdigits, rest, rfl⟩
    have htaken : ((sign ++ digits ++ ')' :: rest).take 1).filter (· = '-') = sign := by
      rcases hsign with rfl | rfl
      · obtain ⟨d, ds, rfl⟩ := List.exists_cons_of_ne_nil hne
        have hd : d ≠ '-' := by
          rintro rfl
          exact absurd (hdigits '-' List.mem_cons_self) (by decide)
        simp [hd]
      · simp
    have hds : ((sign ++ digits ++ ')' :: rest).drop sign.length).takeWhile Char.isDigit =
        digits := by
      rw [List.append_assoc, List.drop_left, List.takeWhile_append_of_pos hdigits,
        List.takeWhile_cons_of_neg (by simp [hparen]), List.append_nil]
    refine ⟨List.prefix_append _ _, ?_⟩
    rw [List.drop_left, htaken, hds]
    refine ⟨⟨hne, ?_⟩, rfl⟩
    rw [← List.length_append, List.drop_left, List.head?_cons]

/-- What the parser reads from a head. -/
def exitCodeOf (head : List Char) : Option Num :=
  ((List.range (head.length + 1)).findSome? fun i => exitCodeHere (head.drop i)).map fun m =>
    Num.ofString (String.ofList m)

theorem ExitNote.ne_nil {sign digits : List Char} (h : ExitNote sign digits text) :
    text ≠ [] := by
  obtain ⟨-, -, -, rest, rfl⟩ := h
  simp

theorem ExitNote.number {sign digits : List Char} (h : ExitNote sign digits text) :
    Num.ofString (String.ofList (sign ++ digits)) =
      nearestDouble (Num.intValue sign digits) :=
  Num.ofString_digits h.1 h.2.2.1 h.2.1

theorem reportsExit_exitCodeOf (head : List Char) :
    ReportsExit nearestDouble head (exitCodeOf head) := by
  rw [exitCodeOf]
  cases hfound : (List.range (head.length + 1)).findSome? fun i => exitCodeHere (head.drop i) with
  | none =>
    intro i sign digits hnote
    have hi : i < head.length := by
      by_contra hge
      exact hnote.ne_nil (List.drop_eq_nil_of_le (not_lt.mp hge))
    have hnone := List.findSome?_eq_none_iff.mp hfound i (List.mem_range.mpr (by omega))
    rw [exitCodeHere_eq_some.mpr ⟨sign, digits, rfl, hnote⟩] at hnone
    cases hnone
  | some n =>
    obtain ⟨i, -, hi, hearlier⟩ := findSome?_range_eq_some.mp hfound
    obtain ⟨sign, digits, rfl, hnote⟩ := exitCodeHere_eq_some.mp hi
    refine ⟨i, sign, digits, hnote, fun j hj sign' digits' hm => ?_, hnote.number⟩
    have hnone := hearlier j hj
    rw [exitCodeHere_eq_some.mpr ⟨sign', digits', rfl, hm⟩] at hnone
    cases hnone

/-! ## The envelope -/

def outMarker : Marker Char := ⟨"--- stdout ---".toList, '\n', by decide⟩

def errMarker : Marker Char := ⟨"--- stderr ---".toList, '\n', by decide⟩

theorem marker_ne : outMarker.word ≠ errMarker.word := by decide

theorem mark_eq : outMarker.mark = errMarker.mark := rfl

theorem length_marker : outMarker.body.length = errMarker.body.length := by decide

/-- A text that consists of a head, an output and an error output, as the parser cuts it. -/
abbrev Rendered (text head out err : List Char) : Prop :=
  Encloses outMarker errMarker text head out err

/-- The parser cuts a text, and reads the exit code from its head. -/
theorem parseRenderedCommand_eq_some {rendered : String} {parts : RenderedParts} :
    parseRenderedCommand rendered = some parts ↔ ∃ head out err,
      Rendered rendered.toList head out err ∧ parts =
        { exitCode := exitCodeOf head
          stdout := String.ofList out
          stderr := String.ofList err } := by
  have hparse : parseRenderedCommand rendered =
      (indexOf? outMarker.word rendered.toList).bind fun si =>
        (lastIndexOf? errMarker.word rendered.toList).bind fun ei =>
          if ei < si then none
          else some
            { exitCode := exitCodeOf (rendered.toList.take si)
              stdout := String.ofList
                (sliceText rendered.toList (si + outMarker.word.length) ei)
              stderr := String.ofList (rendered.toList.drop (ei + errMarker.word.length)) } := by
    change parseRenderedCommand rendered = Option.bind (indexOf? "--- stdout ---\n".toList _)
      fun si => Option.bind (lastIndexOf? "--- stderr ---\n".toList _) _
    rw [parseRenderedCommand]
    cases indexOf? "--- stdout ---\n".toList rendered.toList with
    | none => rfl
    | some si => cases lastIndexOf? "--- stderr ---\n".toList rendered.toList <;> rfl
  rw [hparse]
  constructor
  · intro h
    obtain ⟨si, hsi, h⟩ := Option.bind_eq_some_iff.mp h
    obtain ⟨ei, hei, h⟩ := Option.bind_eq_some_iff.mp h
    split at h
    · cases h
    · next hle =>
      obtain rfl := Option.some.inj h
      exact ⟨_, _, _, encloses_of_standsAt mark_eq length_marker marker_ne
        ((indexOf?_eq_some word_ne_nil).mp hsi) ((lastIndexOf?_eq_some word_ne_nil).mp hei)
        (not_lt.mp hle), rfl⟩
  · rintro ⟨head, out, err, hcut, rfl⟩
    have hle : ¬ (head ++ outMarker.word ++ out).length < head.length := by
      simp only [List.length_append]
      omega
    rw [(indexOf?_eq_some word_ne_nil).mpr hcut.first,
      (lastIndexOf?_eq_some word_ne_nil).mpr hcut.last, Option.bind_some, Option.bind_some,
      if_neg hle, hcut.take, sliceText, hcut.slice, hcut.drop]

/-- The marker lines as texts. -/
def outText : String := "--- stdout ---\n"

def errText : String := "--- stderr ---\n"

/-- The text holds the part somewhere. -/
def Contains (text part : String) : Prop := part.toList <:+: text.toList

theorem toList_outText : outText.toList = outMarker.word := rfl

theorem toList_errText : errText.toList = errMarker.word := rfl

theorem toList_envelope (h x y : String) : (h ++ outText ++ x ++ errText ++ y).toList =
    h.toList ++ outMarker.word ++ x.toList ++ errMarker.word ++ y.toList := by
  simp only [String.toList_append, toList_outText, toList_errText]

theorem isSome_parseRenderedCommand (r : String) :
    (parseRenderedCommand r).isSome ↔ ∃ h x y, r = h ++ outText ++ x ++ errText ++ y := by
  have hcut : (parseRenderedCommand r).isSome ↔
      ∃ head out err, Rendered r.toList head out err := by
    rw [Option.isSome_iff_exists]
    constructor
    · rintro ⟨parts, hparts⟩
      obtain ⟨head, out, err, hcut, -⟩ := parseRenderedCommand_eq_some.mp hparts
      exact ⟨head, out, err, hcut⟩
    · rintro ⟨head, out, err, hcut⟩
      exact ⟨_, parseRenderedCommand_eq_some.mpr ⟨head, out, err, hcut, rfl⟩⟩
  rw [hcut, exists_encloses_iff mark_eq length_marker marker_ne]
  constructor
  · rintro ⟨h, x, y, hr⟩
    refine ⟨String.ofList h, String.ofList x, String.ofList y, String.toList_inj.mp ?_⟩
    simp only [toList_envelope, String.toList_ofList, hr]
  · rintro ⟨h, x, y, rfl⟩
    exact ⟨h.toList, x.toList, y.toList, toList_envelope h x y⟩

/-- The parser accepts exactly the texts with the output marker before the error marker. It cuts
them at the first and at the last one, reads the exit code from the head as the double nearest to
it, than which no double is nearer, and gives back every output. -/
theorem rendered_envelope :
    (∀ r : String, (parseRenderedCommand r).isSome ↔
      ∃ h x y, r = h ++ outText ++ x ++ errText ++ y) ∧
    (∀ r parts, parseRenderedCommand r = some parts →
      ∃ head, r = head ++ outText ++ parts.stdout ++ errText ++ parts.stderr ∧
        ¬ Contains head outText ∧ ¬ Contains parts.stderr errText ∧
        ReportsExit nearestDouble head.toList parts.exitCode) ∧
    (∀ n q, nearestDouble n = .fin q →
      Double.IsDouble q ∧ ∀ d, Double.IsDouble d → |(n : ℚ) - q| ≤ |n - d|) ∧
    ∀ head stdout stderr : String, ¬ Contains head outText → ¬ Contains stderr errText →
      ∃ exitCode, ReportsExit nearestDouble head.toList exitCode ∧
        parseRenderedCommand (head ++ outText ++ stdout ++ errText ++ stderr) =
          some { exitCode, stdout, stderr } := by
  refine ⟨isSome_parseRenderedCommand, ?_, fun _ _ => nearest_nearestDouble, ?_⟩
  · intro r parts hparts
    obtain ⟨head, out, err, hcut, rfl⟩ := parseRenderedCommand_eq_some.mp hparts
    refine ⟨String.ofList head, String.toList_inj.mp ?_, ?_, ?_, ?_⟩
    · rw [toList_envelope, hcut.text]
      simp only [String.toList_ofList]
    · rw [Contains, toList_outText, String.toList_ofList]
      exact hcut.head
    · rw [Contains, toList_errText, String.toList_ofList]
      exact hcut.tail
    · rw [String.toList_ofList]
      exact reportsExit_exitCodeOf head
  · intro head stdout stderr hhead hstderr
    rw [Contains, toList_outText] at hhead
    rw [Contains, toList_errText] at hstderr
    refine ⟨exitCodeOf head.toList, reportsExit_exitCodeOf _, ?_⟩
    refine parseRenderedCommand_eq_some.mpr ⟨head.toList, stdout.toList, stderr.toList, ?_, ?_⟩
    · exact ⟨toList_envelope head stdout stderr, hhead, hstderr⟩
    · rw [String.ofList_toList, String.ofList_toList]

/-- A text whose exit code lies between two doubles; the parser reads the smaller one. -/
def largeExit : String := "exit=Some(9007199254740993)\n"

theorem large_exit_rounded :
    ¬ ∀ r parts, parseRenderedCommand r = some parts →
      ∃ head, r = head ++ outText ++ parts.stdout ++ errText ++ parts.stderr ∧
        ¬ Contains head outText ∧ ¬ Contains parts.stderr errText ∧
        ReportsExit (fun n => .fin n) head.toList parts.exitCode := by
  intro h
  have hparse : (parseRenderedCommand (largeExit ++ outText ++ "" ++ errText ++ "")).map
      (fun parts => (parts.exitCode, parts.stdout, parts.stderr)) =
        some (some (.fin 9007199254740992), "", "") := by
    decide +kernel
  obtain ⟨⟨code, stdout, stderr⟩, hparts, hfields⟩ := Option.map_eq_some_iff.mp hparse
  cases hfields
  obtain ⟨head, htext, -, -, i, sign, digits, hnote, hfirst, hcode⟩ := h _ _ hparts
  have hhead : head.toList = largeExit.toList := by
    have hlists := congrArg String.toList htext
    simp only [toList_envelope, List.append_assoc] at hlists
    exact (List.append_cancel_right hlists).symm
  rw [hhead] at hnote hfirst
  have hfound : exitCodeHere (largeExit.toList.drop 0) = some "9007199254740993".toList := by
    decide +kernel
  obtain ⟨sign', digits', -, hzero⟩ := exitCodeHere_eq_some.mp hfound
  obtain rfl : i = 0 := by
    by_contra hi
    exact hfirst 0 (Nat.pos_of_ne_zero hi) sign' digits' hzero
  have hsame := hfound.symm.trans (exitCodeHere_eq_some.mpr ⟨sign, digits, rfl, hnote⟩)
  rcases hnote.1 with rfl | rfl
  · obtain rfl := Option.some.inj hsame
    exact absurd hcode (by decide +kernel)
  · exact absurd (Option.some.inj hsame) (by simp)

end ValyriaApp
