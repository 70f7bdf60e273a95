import Mathlib.Data.Nat.Notation
import ValyriaApp.Lib.Split

/-! # The log of the repository

`git log` is told to print the five fields of a commit with unit separators
between them and a record separator behind them. What it makes of that format is
a parameter, with the placeholders it documents. The parser cuts at the same two
characters and knows no escape, so the commits come back exactly when no field
holds a separator and no line break stands at an end of a record.
-/

namespace ValyriaApp.Bridge
open Lib

structure GitCommit where
  hash : List Char
  shortHash : List Char
  author : List Char
  relTime : List Char
  subject : List Char
  deriving DecidableEq

/-! ## The parser -/

def unitSep : Char := '\x1f'

def recordSep : Char := '\x1e'

def isNewline (c : Char) : Bool := c = '\n' || c = '\r'

/-- `trim_matches(['\n', '\r'])` -/
def trimNewlines (cs : List Char) : List Char := (cs.dropWhile isNewline).rdropWhile isNewline

/-- The first four fields have to be there; the subject defaults to the empty text. -/
def commitOf : List (List Char) → Option GitCommit
  | hash :: shortHash :: author :: relTime :: fields =>
    some { hash, shortHash, author, relTime, subject := fields.headD [] }
  | _ => none

def parseRecord (text : List Char) : Option GitCommit :=
  let text := trimNewlines text
  if text.isEmpty then none else commitOf (text.splitOn unitSep)

def parseLog (raw : List Char) : List GitCommit := (raw.splitOn recordSep).filterMap parseRecord

def logFormat : String := "%H%x1f%h%x1f%an%x1f%cr%x1f%s%x1e"

def logArgs (limit : ℕ) : List String :=
  ["log", "-" ++ toString (max limit 1), "--no-color", "--format=" ++ logFormat]

/-- `GitRepo::log`, over the standard output or the error of a run of `git`. -/
def log (run : List String → Except String (List Char)) (limit : ℕ) :
    Except String (List GitCommit) :=
  (run (logArgs limit)).map parseLog

/-! ## What git prints -/

namespace GitCommit

def fields (c : GitCommit) : List (List Char) :=
  [c.hash, c.shortHash, c.author, c.relTime, c.subject]

/-- What stands before the record separator. -/
def record (c : GitCommit) : List Char := [unitSep].intercalate c.fields

def trimmed (c : GitCommit) : GitCommit :=
  { c with hash := c.hash.dropWhile isNewline, subject := c.subject.rdropWhile isNewline }

/-- No field holds one of the two separators. -/
def Separable (c : GitCommit) : Prop := ∀ f ∈ c.fields, unitSep ∉ f ∧ recordSep ∉ f

/-- No line break stands at an end of the record. -/
structure Unpadded (c : GitCommit) : Prop where
  hash : ∀ x ∈ c.hash.head?, isNewline x = false
  subject : ∀ x ∈ c.subject.getLast?, isNewline x = false

end GitCommit

/-- What a format does with the placeholders that the log uses: `pretty c format` is the text that
the format makes of a commit. -/
structure Placeholders (pretty : GitCommit → List Char → List Char) : Prop where
  hash : ∀ c cs, pretty c ('%' :: 'H' :: cs) = c.hash ++ pretty c cs
  shortHash : ∀ c cs, pretty c ('%' :: 'h' :: cs) = c.shortHash ++ pretty c cs
  author : ∀ c cs, pretty c ('%' :: 'a' :: 'n' :: cs) = c.author ++ pretty c cs
  relTime : ∀ c cs, pretty c ('%' :: 'c' :: 'r' :: cs) = c.relTime ++ pretty c cs
  subject : ∀ c cs, pretty c ('%' :: 's' :: cs) = c.subject ++ pretty c cs
  unit : ∀ c cs, pretty c ('%' :: 'x' :: '1' :: 'f' :: cs) = '\x1f' :: pretty c cs
  record : ∀ c cs, pretty c ('%' :: 'x' :: '1' :: 'e' :: cs) = '\x1e' :: pretty c cs
  nil : ∀ c, pretty c [] = []

/-- The output of `git log`: each commit on a line of its own. -/
def printed (pretty : GitCommit → List Char → List Char) (commits : List GitCommit) : List Char :=
  commits.flatMap fun c => pretty c logFormat.toList ++ ['\n']

/-- Every commit can be told from the text around it. -/
def Delimited (commits : List GitCommit) : Prop := ∀ c ∈ commits, c.Separable ∧ c.Unpadded

/-! ## Reading a record -/

section Trim

variable {cs : List Char}

theorem mem_of_mem_trimNewlines {x : Char} (h : x ∈ trimNewlines cs) : x ∈ cs :=
  List.dropWhile_subset _ (( List.rdropWhile_prefix _ _).subset h)

/-- Trimming stops at the first and at the last separator between the fields. -/
theorem trimNewlines_framed (cs ds es : List Char) :
    trimNewlines (cs ++ unitSep :: ds ++ unitSep :: es) =
      cs.dropWhile isNewline ++ unitSep :: ds ++ unitSep :: es.rdropWhile isNewline := by
  have hsep : isNewline unitSep = false := rfl
  have hdrop : (cs ++ unitSep :: ds ++ unitSep :: es).dropWhile isNewline =
      cs.dropWhile isNewline ++ unitSep :: ds ++ unitSep :: es := by
    induction cs with
    | nil => simp [hsep]
    | cons c cs ih =>
      by_cases hc : isNewline c
      · simpa [hc] using ih
      · simp [hc]
  rw [trimNewlines, hdrop, rdropWhile_append_cons hsep]

theorem dropWhile_eq_self_iff_head? :
    cs.dropWhile isNewline = cs ↔ ∀ x ∈ cs.head?, isNewline x = false := by
  cases cs <;> simp [List.dropWhile_eq_self_iff]

theorem rdropWhile_eq_self_iff_getLast? :
    cs.rdropWhile isNewline = cs ↔ ∀ x ∈ cs.getLast?, isNewline x = false := by
  induction cs using List.reverseRecOn with
  | nil => simp
  | append_singleton cs x ih => simp [List.rdropWhile_eq_self_iff]

end Trim

section Record

variable {c : GitCommit}

theorem trimNewlines_record (c : GitCommit) : trimNewlines c.record = c.trimmed.record := by
  have hframed (c : GitCommit) : c.record = c.hash ++ unitSep ::
      (c.shortHash ++ unitSep :: c.author ++ unitSep :: c.relTime) ++ unitSep :: c.subject := by
    simp [GitCommit.record, GitCommit.fields, List.intercalate]
  rw [hframed, hframed, trimNewlines_framed]
  rfl

theorem mem_record {x : Char} (hx : x ≠ unitSep) : x ∈ c.record ↔ ∃ f ∈ c.fields, x ∈ f := by
  simp [GitCommit.record, GitCommit.fields, List.intercalate, hx]

theorem trimmed_separable (h : c.Separable) : c.trimmed.Separable := by
  intro f hf
  simp only [GitCommit.fields, GitCommit.trimmed, List.mem_cons, List.not_mem_nil, or_false] at hf
  rcases hf with rfl | hf | hf | hf | rfl
  · have hhash := h c.hash (by simp [GitCommit.fields])
    exact ⟨fun hx => hhash.1 (List.dropWhile_subset _ hx),
      fun hx => hhash.2 (List.dropWhile_subset _ hx)⟩
  all_goals try exact h f (by simp [GitCommit.fields, hf])
  have hsubject := h c.subject (by simp [GitCommit.fields])
  exact ⟨fun hx => hsubject.1 (( List.rdropWhile_prefix _ _).subset hx),
    fun hx => hsubject.2 (( List.rdropWhile_prefix _ _).subset hx)⟩

theorem trimmed_eq_self_iff : c.trimmed = c ↔ c.Unpadded := by
  have hself : c.trimmed = c ↔
      c.hash.dropWhile isNewline = c.hash ∧ c.subject.rdropWhile isNewline = c.subject := by
    cases c
    simp [GitCommit.trimmed]
  rw [hself, dropWhile_eq_self_iff_head?, rdropWhile_eq_self_iff_getLast?]
  exact ⟨fun h => ⟨h.1, h.2⟩, fun h => ⟨h.hash, h.subject⟩⟩

theorem splitOn_record (h : c.Separable) : c.record.splitOn unitSep = c.fields :=
  List.splitOn_intercalate unitSep (fun f hf => (h f hf).1) (by simp [GitCommit.fields])

theorem parseRecord_record (h : c.Separable) : parseRecord c.record = some c.trimmed := by
  have hne : c.trimmed.record ≠ [] := by
    simp [GitCommit.record, GitCommit.fields, List.intercalate]
  rw [parseRecord, trimNewlines_record, splitOn_record (trimmed_separable h)]
  simp [hne, commitOf, GitCommit.fields]

/-- The line break before a record is trimmed with it. -/
theorem parseRecord_newline (cs : List Char) : parseRecord ('\n' :: cs) = parseRecord cs := by
  have htrim : trimNewlines ('\n' :: cs) = trimNewlines cs := by
    rw [trimNewlines, List.dropWhile_cons_of_pos (by decide), trimNewlines]
  rw [parseRecord, htrim, parseRecord]

theorem mem_fields_of_commitOf {pieces : List (List Char)} {f : List Char}
    (h : commitOf pieces = some c) (hf : f ∈ c.fields) : f ∈ pieces ∨ f = [] := by
  match pieces, h with
  | hash :: shortHash :: author :: relTime :: rest, h =>
    obtain rfl := Option.some.inj h
    cases rest with
    | nil =>
      simp only [GitCommit.fields, List.headD_nil, List.mem_cons, List.not_mem_nil] at hf ⊢
      tauto
    | cons subject rest =>
      simp only [GitCommit.fields, List.headD_cons, List.mem_cons, List.not_mem_nil] at hf ⊢
      tauto

/-- What is read has no separator in it: it was cut at them. -/
theorem parseRecord_separable {cs : List Char} (hcs : recordSep ∉ cs)
    (h : parseRecord cs = some c) : c.Separable := by
  have hpieces : ∀ f ∈ (trimNewlines cs).splitOn unitSep, unitSep ∉ f ∧ recordSep ∉ f := by
    intro f hf
    refine ⟨not_mem_of_mem_splitOn hf, fun hx => hcs (mem_of_mem_trimNewlines ?_)⟩
    exact (exists_mem_splitOn_iff (by decide)).mp ⟨f, hf, hx⟩
  rw [parseRecord] at h
  split at h
  · contradiction
  · generalize (trimNewlines cs).splitOn unitSep = pieces at hpieces h
    intro f hf
    rcases mem_fields_of_commitOf h hf with hf | rfl
    · exact hpieces f hf
    · exact ⟨List.not_mem_nil, List.not_mem_nil⟩

end Record

/-! ## Reading the log -/

section Log

variable {pretty : GitCommit → List Char → List Char} {commits : List GitCommit}

theorem pretty_logFormat (hpretty : Placeholders pretty) (c : GitCommit) :
    pretty c logFormat.toList = c.record ++ [recordSep] := by
  have hformat : logFormat.toList = ['%', 'H', '%', 'x', '1', 'f', '%', 'h', '%', 'x', '1', 'f',
      '%', 'a', 'n', '%', 'x', '1', 'f', '%', 'c', 'r', '%', 'x', '1', 'f', '%', 's',
      '%', 'x', '1', 'e'] := by rfl
  rw [hformat, hpretty.hash, hpretty.unit, hpretty.shortHash, hpretty.unit, hpretty.author,
    hpretty.unit, hpretty.relTime, hpretty.unit, hpretty.subject, hpretty.record, hpretty.nil]
  simp [GitCommit.record, GitCommit.fields, List.intercalate, unitSep, recordSep]

theorem printed_cons (hpretty : Placeholders pretty) (c : GitCommit) (commits : List GitCommit) :
    printed pretty (c :: commits) =
      c.record ++ recordSep :: '\n' :: printed pretty commits := by
  simp [printed, pretty_logFormat hpretty]

theorem parseLog_newline (cs : List Char) : parseLog ('\n' :: cs) = parseLog cs := by
  obtain ⟨first, rest, hsplit⟩ := List.exists_cons_of_ne_nil (List.splitOn_ne_nil recordSep cs)
  have hcons : ('\n' :: cs).splitOn recordSep = ('\n' :: first) :: rest := by
    rw [List.splitOn_cons_eq_if_modifyHead, if_neg (by decide), hsplit, List.modifyHead_cons]
  rw [parseLog, hcons, parseLog, hsplit, List.filterMap_cons, List.filterMap_cons,
    parseRecord_newline]

theorem parseLog_cons (hpretty : Placeholders pretty) {c : GitCommit} (h : c.Separable)
    (commits : List GitCommit) :
    parseLog (printed pretty (c :: commits)) = c.trimmed :: parseLog (printed pretty commits) := by
  have hsep : recordSep ∉ c.record := by
    rw [mem_record (by decide)]
    rintro ⟨f, hf, hx⟩
    exact (h f hf).2 hx
  rw [printed_cons hpretty, parseLog, List.splitOn_append_cons_self_of_not_mem hsep,
    List.filterMap_cons_some (parseRecord_record h), ← parseLog, parseLog_newline]

theorem parseLog_printed (hpretty : Placeholders pretty) (h : ∀ c ∈ commits, c.Separable) :
    parseLog (printed pretty commits) = commits.map (·.trimmed) := by
  induction commits with
  | nil => rfl
  | cons c commits ih =>
    obtain ⟨hc, hcommits⟩ := List.forall_mem_cons.mp h
    rw [parseLog_cons hpretty hc, ih hcommits, List.map_cons]

theorem parseLog_separable {raw : List Char} {c : GitCommit} (h : c ∈ parseLog raw) :
    c.Separable := by
  obtain ⟨text, htext, hc⟩ := List.mem_filterMap.mp h
  exact parseRecord_separable (not_mem_of_mem_splitOn htext) hc

theorem parseLog_printed_iff (hpretty : Placeholders pretty) :
    parseLog (printed pretty commits) = commits ↔ Delimited commits := by
  constructor
  · intro h
    have hsep : ∀ c ∈ commits, c.Separable := by
      intro c hc
      rw [← h] at hc
      exact parseLog_separable hc
    rw [parseLog_printed hpretty hsep] at h
    have hself : ∀ c ∈ commits, c.trimmed = c := by
      simpa using List.map_inj_left.mp (h.trans (List.map_id commits).symm)
    exact fun c hc => ⟨hsep c hc, trimmed_eq_self_iff.mp (hself c hc)⟩
  · intro h
    rw [parseLog_printed hpretty fun c hc => (h c hc).1]
    conv_rhs => rw [← List.map_id commits]
    apply List.map_congr_left
    intro c hc
    exact trimmed_eq_self_iff.mpr (h c hc).2

/-- The log shows the commits git printed exactly when they are delimited, and whatever git prints,
no field of a commit shown holds a separator. -/
theorem log_reads_back_iff (hpretty : Placeholders pretty) (commits : List GitCommit)
    {run : List String → Except String (List Char)} {limit : ℕ}
    (hrun : run (logArgs limit) = .ok (printed pretty commits)) :
    (log run limit = .ok commits ↔ Delimited commits) ∧
      ∀ run limit shown, log run limit = .ok shown → ∀ c ∈ shown, c.Separable := by
  constructor
  · have hlog : log run limit = .ok (parseLog (printed pretty commits)) := by
      rw [log, hrun]
      rfl
    rw [hlog, Except.ok.injEq, parseLog_printed_iff hpretty]
  · intro run limit shown hshown c hc
    rw [log] at hshown
    cases hout : run (logArgs limit) with
    | error e => exact nomatch hout ▸ hshown
    | ok raw =>
      rw [hout] at hshown
      obtain rfl := Except.ok.inj hshown
      exact parseLog_separable hc

end Log

/-- A formatter that knows the placeholders of the log. -/
def GitCommit.expand (c : GitCommit) : List Char → List Char
  | '%' :: 'H' :: cs => c.hash ++ c.expand cs
  | '%' :: 'h' :: cs => c.shortHash ++ c.expand cs
  | '%' :: 'a' :: 'n' :: cs => c.author ++ c.expand cs
  | '%' :: 'c' :: 'r' :: cs => c.relTime ++ c.expand cs
  | '%' :: 's' :: cs => c.subject ++ c.expand cs
  | '%' :: 'x' :: '1' :: 'f' :: cs => '\x1f' :: c.expand cs
  | '%' :: 'x' :: '1' :: 'e' :: cs => '\x1e' :: c.expand cs
  | x :: cs => x :: c.expand cs
  | [] => []

theorem placeholders_expand : Placeholders GitCommit.expand where
  hash _ _ := rfl
  shortHash _ _ := rfl
  author _ _ := rfl
  relTime _ _ := rfl
  subject _ _ := rfl
  unit _ _ := rfl
  record _ _ := rfl
  nil _ := rfl

/-- Two commits, the subject of the second with a line break behind it. -/
def sampleCommits : List GitCommit :=
  [⟨"a1b2".toList, "a1".toList, "Ann".toList, "2 days ago".toList, "Fix the parser".toList⟩,
    ⟨"c3d4".toList, "c3".toList, "Bob".toList, "3 days ago".toList, "Start\n".toList⟩]

def sampleGit (args : List String) : Except String (List Char) :=
  if args = ["log", "-2", "--no-color", "--format=%H%x1f%h%x1f%an%x1f%cr%x1f%s%x1e"] then
    .ok ("a1b2\x1fa1\x1fAnn\x1f2 days ago\x1fFix the parser\x1e\n".toList ++
      "c3d4\x1fc3\x1fBob\x1f3 days ago\x1fStart\n\x1e\n".toList)
  else .error "usage"

theorem log_reads_back_sample :
    (log sampleGit 2 = .ok sampleCommits ↔ Delimited sampleCommits) ∧
      ∀ run limit shown, log run limit = .ok shown → ∀ c ∈ shown, c.Separable :=
  log_reads_back_iff placeholders_expand sampleCommits (by decide +kernel)

end ValyriaApp.Bridge
