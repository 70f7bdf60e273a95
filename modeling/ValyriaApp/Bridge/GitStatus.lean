import Mathlib.Algebra.GroupWithZero.Nat
import Mathlib.Data.List.Forall2
import Mathlib.Data.Nat.Notation

/-! # The status of the repository

`git status` prints fields that end in a NUL. A record is one field, and a
second one follows when a file was moved in the index or in the work tree. The
parser takes the second field only when the index letter says that the file was
moved; any other second field is read as a record of its own.
-/

namespace ValyriaApp.Bridge

structure GitEntry where
  path : String
  status : String
  staged : Bool
  deriving DecidableEq

/-! ## The parser -/

/-- The length of a text in bytes. -/
def byteLen (cs : List Char) : ℕ := (cs.map Char.utf8Size).sum

/-- `split_at` at a number of bytes; `none` when it panics, inside a character or behind the end. -/
def splitAtByte : ℕ → List Char → Option (List Char × List Char)
  | 0, cs => some ([], cs)
  | _ + 1, [] => none
  | n + 1, c :: cs =>
    if c.utf8Size ≤ n + 1 then
      (splitAtByte (n + 1 - c.utf8Size) cs).map fun p => (c :: p.1, p.2)
    else none

/-- `as_bytes()[i] as char` -/
def byteChar (cs : List Char) (i : ℕ) : Option Char :=
  (cs.flatMap String.utf8EncodeChar)[i]?.map fun b => Char.ofNat b.toNat

def statusOf (code : Char) : String :=
  match code with
  | 'M' => "modified"
  | 'A' => "added"
  | 'D' => "deleted"
  | 'R' => "renamed"
  | 'C' => "copied"
  | 'U' => "conflicted"
  | '?' => "untracked"
  | _ => "modified"

def entryOf (x y : Char) (path : List Char) : GitEntry :=
  let staged := decide (x ≠ ' ' ∧ x ≠ '?')
  { path := String.ofList path, status := statusOf (if staged then x else y), staged }

/-- The loop over the fields; `from` says that the next one is the old path of a rename or copy. -/
def parseFields : Bool → List (List Char) → Option (List GitEntry)
  | _, [] => some []
  | true, _ :: it => parseFields false it
  | false, field :: it =>
    if byteLen field < 4 then parseFields false it
    else do
      let (xy, path) ← splitAtByte 3 field
      let x ← byteChar xy 0
      let y ← byteChar xy 1
      let out ← parseFields (x = 'R' ∨ x = 'C') it
      return entryOf x y path :: out

def nul : Char := '\x00'

/-- Parse `git status --porcelain=v1 -z`; `none` when the parser panics. -/
def parsePorcelainZ (raw : String) : Option (List GitEntry) :=
  parseFields false (raw.toList.splitOn nul)

/-! ## What git prints -/

inductive Letter where
  | unmodified | modified | typeChanged | added | deleted | renamed | copied | unmerged
  | untracked | ignored
  deriving DecidableEq

def Letter.char : Letter → Char
  | .unmodified => ' '
  | .modified => 'M'
  | .typeChanged => 'T'
  | .added => 'A'
  | .deleted => 'D'
  | .renamed => 'R'
  | .copied => 'C'
  | .unmerged => 'U'
  | .untracked => '?'
  | .ignored => '!'

def Letter.moves (l : Letter) : Bool := l = .renamed ∨ l = .copied

structure Path where
  text : List Char
  ne_nil : text ≠ []
  nul_not_mem : nul ∉ text

/-- A record: the letters of the index and of the work tree, the path, and the original path of a
file that was moved in either. -/
structure StatusRecord where
  x : Letter
  y : Letter
  path : Path
  orig : Option Path
  moved_iff : orig.isSome = (x.moves || y.moves)

namespace StatusRecord

def main (r : StatusRecord) : List Char := r.x.char :: r.y.char :: ' ' :: r.path.text

def fields (r : StatusRecord) : List (List Char) := r.main :: (r.orig.map (·.text)).toList

/-- The pairs of letters of an unmerged path. -/
def Unmerged (r : StatusRecord) : Prop :=
  (r.x, r.y) ∈ [(.deleted, .deleted), (.added, .unmerged), (.unmerged, .deleted),
    (.unmerged, .added), (.deleted, .unmerged), (.added, .added), (.unmerged, .unmerged)]

def Staged (r : StatusRecord) : Prop := r.x ≠ .unmodified ∧ r.x ≠ .untracked

instance (r : StatusRecord) : Decidable r.Unmerged := inferInstanceAs (Decidable (_ ∈ _))
instance (r : StatusRecord) : Decidable r.Staged := inferInstanceAs (Decidable (_ ∧ _))

end StatusRecord

/-- `git status --porcelain=v1 -z` -/
def encode (rs : List StatusRecord) : String :=
  String.ofList ((rs.flatMap (·.fields)).flatMap (· ++ [nul]))

/-- The entry is the one of the record. -/
structure Describes (r : StatusRecord) (e : GitEntry) : Prop where
  path : e.path = String.ofList r.path.text
  staged : e.staged = true ↔ r.Staged
  conflicted : r.Unmerged → e.status = "conflicted"

/-- The parser returns exactly one entry for each record, in order. -/
def ParsedAs (rs : List StatusRecord) : Prop :=
  ∃ entries, parsePorcelainZ (encode rs) = some entries ∧ List.Forall₂ Describes rs entries

/-! ## When the parser finds the records -/

namespace StatusRecord

/-- The original path that the parser does not take for one. -/
def stray (r : StatusRecord) : Option Path := if r.x.moves then none else r.orig

/-- An unmerged path has the letter that the parser reads as a conflict in front. -/
def Coded (r : StatusRecord) : Prop := r.Unmerged → r.x = .unmerged

def entry (r : StatusRecord) : GitEntry := entryOf r.x.char r.y.char r.path.text

end StatusRecord

/-- The original path reads as the renamed or copied file of the next record, which is staged and
not unmerged. -/
def Masks (f : Path) (r : StatusRecord) : Prop :=
  (∃ xy, splitAtByte 3 f.text = some (xy, r.path.text) ∧
    (byteChar xy 0 = some 'R' ∨ byteChar xy 0 = some 'C')) ∧ r.Staged ∧ ¬ r.Unmerged

/-- What the parser finds after an original path that it reads as a record. -/
def Clean : Option Path → List StatusRecord → Prop
  | none, [] => True
  | some f, [] => byteLen f.text < 4
  | none, r :: rs => r.Coded ∧ Clean r.stray rs
  | some f, r :: rs =>
    if byteLen f.text < 4 then r.Coded ∧ Clean r.stray rs else Masks f r ∧ Clean r.orig rs

variable {r : StatusRecord} {rs : List StatusRecord} {f : Path} {cs xy path : List Char}
  {es : List GitEntry} {p : Option Path} {n : ℕ}

/-! ### Bytes -/

theorem byteLen_of_splitAtByte (h : splitAtByte n cs = some (xy, path)) : byteLen xy = n := by
  induction n, cs using splitAtByte.induct generalizing xy with
  | case1 cs =>
    rw [splitAtByte, Option.some.injEq, Prod.mk.injEq] at h
    rw [← h.1]
    rfl
  | case2 n => cases h
  | case3 n c cs hle ih =>
    rw [splitAtByte, if_pos hle, Option.map_eq_some_iff] at h
    obtain ⟨⟨rest, path'⟩, hrest, heq⟩ := h
    obtain ⟨rfl, rfl⟩ := Prod.mk.inj heq
    have hlen : byteLen (c :: rest) = c.utf8Size + byteLen rest := by simp [byteLen]
    rw [hlen, ih hrest]
    omega
  | case4 n c cs hle => simp [splitAtByte, hle] at h

theorem byteChar_isSome {i : ℕ} (h : i < byteLen cs) : (byteChar cs i).isSome := by
  have hlen : (cs.flatMap String.utf8EncodeChar).length = byteLen cs := by
    simp [byteLen, List.length_flatMap]
  rw [byteChar, Option.isSome_map, List.getElem?_eq_getElem (hlen ▸ h)]
  rfl

theorem Letter.utf8Size_char (l : Letter) : l.char.utf8Size = 1 := by
  cases l <;> rfl

theorem Letter.byteChar_char (l : Letter) (cs : List Char) :
    byteChar (l.char :: cs) 0 = some l.char := by
  cases l <;> rfl

/-! ### One record -/

theorem splitAtByte_main (r : StatusRecord) :
    splitAtByte 3 r.main = some ([r.x.char, r.y.char, ' '], r.path.text) := by
  have hspace : Char.utf8Size ' ' = 1 := rfl
  simp [StatusRecord.main, splitAtByte, Letter.utf8Size_char, hspace]

theorem byteLen_main (r : StatusRecord) : ¬ byteLen r.main < 4 := by
  obtain ⟨c, cs, hc⟩ := List.exists_cons_of_ne_nil r.path.ne_nil
  have hspace : Char.utf8Size ' ' = 1 := rfl
  have hpos := Char.utf8Size_pos c
  simp only [StatusRecord.main, hc, byteLen, List.map_cons, List.sum_cons, Letter.utf8Size_char,
    hspace]
  omega

theorem Letter.char_moves (l : Letter) : (decide (l.char = 'R' ∨ l.char = 'C')) = l.moves := by
  cases l <;> decide

theorem Letter.char_staged (l : Letter) :
    (l.char ≠ ' ' ∧ l.char ≠ '?') ↔ l ≠ .unmodified ∧ l ≠ .untracked := by
  cases l <;> decide

theorem parseFields_main (r : StatusRecord) (it : List (List Char)) :
    parseFields false (r.main :: it) = (parseFields r.x.moves it).map (r.entry :: ·) := by
  have hx : byteChar [r.x.char, r.y.char, ' '] 0 = some r.x.char := Letter.byteChar_char _ _
  have hy : byteChar [r.x.char, r.y.char, ' '] 1 = some r.y.char := by
    cases r.x <;> cases r.y <;> rfl
  rw [parseFields, if_neg (byteLen_main r), splitAtByte_main]
  simp only [bind, pure, Option.bind_some, hx, hy, Letter.char_moves]
  exact (Option.map_eq_bind ..).symm

theorem describes_entry_iff : Describes r r.entry ↔ r.Coded := by
  have hstaged : r.entry.staged = true ↔ r.Staged := by
    rw [StatusRecord.entry, entryOf, decide_eq_true_iff]
    exact Letter.char_staged r.x
  have hstatus (h : r.Unmerged) : r.entry.status = "conflicted" ↔ r.x = .unmerged := by
    rw [StatusRecord.entry]
    simp only [StatusRecord.Unmerged, List.mem_cons, Prod.mk.injEq, List.not_mem_nil, or_false] at h
    rcases h with ⟨hx, hy⟩ | ⟨hx, hy⟩ | ⟨hx, hy⟩ | ⟨hx, hy⟩ | ⟨hx, hy⟩ | ⟨hx, hy⟩ | ⟨hx, hy⟩
    all_goals
      rw [hx, hy]
      simp [entryOf, statusOf, Letter.char]
  constructor
  · intro h hunmerged
    exact (hstatus hunmerged).mp (h.conflicted hunmerged)
  · intro h
    exact ⟨rfl, hstaged, fun hunmerged => (hstatus hunmerged).mpr (h hunmerged)⟩

/-! ### The stream of fields -/

/-- The fields the parser has before it, after an original path that is still to come. -/
def fieldsOf (p : Option Path) (rs : List StatusRecord) : List (List Char) :=
  (p.map (·.text)).toList ++ rs.flatMap (·.fields) ++ [[]]

theorem splitOn_encode (rs : List StatusRecord) :
    (encode rs).toList.splitOn nul = fieldsOf none rs := by
  have hmem : ∀ field ∈ rs.flatMap (·.fields), nul ∉ field := by
    intro field hfield
    obtain ⟨r, -, hr⟩ := List.mem_flatMap.mp hfield
    rcases List.mem_cons.mp hr with rfl | horig
    · have hletter (l : Letter) : nul ≠ l.char := by cases l <;> decide
      have hspace : nul ≠ ' ' := by decide
      simp [StatusRecord.main, hletter, hspace, r.path.nul_not_mem]
    · obtain ⟨p, -, rfl⟩ := Option.map_eq_some_iff.mp (Option.mem_toList.mp horig)
      exact p.nul_not_mem
  rw [encode, String.toList_ofList, fieldsOf, Option.map_none, Option.toList_none, List.nil_append]
  generalize rs.flatMap (·.fields) = fields at hmem ⊢
  induction fields with
  | nil => rfl
  | cons field fields ih =>
    obtain ⟨hfield, hfields⟩ := List.forall_mem_cons.mp hmem
    rw [List.flatMap_cons, List.append_assoc, List.singleton_append,
      List.splitOn_append_cons_self_of_not_mem hfield, ih hfields, List.cons_append]

theorem parseFields_cons (r : StatusRecord) (rs : List StatusRecord) :
    parseFields false (fieldsOf none (r :: rs)) =
      (parseFields false (fieldsOf r.stray rs)).map (r.entry :: ·) := by
  have hfields : fieldsOf none (r :: rs) = r.main :: fieldsOf r.orig rs := by
    simp [fieldsOf, StatusRecord.fields]
  rw [hfields, parseFields_main, StatusRecord.stray]
  cases hmoves : r.x.moves with
  | false => rfl
  | true =>
    obtain ⟨p, hp⟩ := Option.isSome_iff_exists.mp (r.moved_iff.trans (by rw [hmoves, Bool.true_or]))
    rw [hp]
    rfl

theorem parseFields_skip (r : StatusRecord) (rs : List StatusRecord) :
    parseFields true (fieldsOf none (r :: rs)) = parseFields false (fieldsOf r.orig rs) := by
  have hfields : fieldsOf none (r :: rs) = r.main :: fieldsOf r.orig rs := by
    simp [fieldsOf, StatusRecord.fields]
  rw [hfields, parseFields]

theorem parseFields_short (h : byteLen f.text < 4) :
    parseFields false (fieldsOf (some f) rs) = parseFields false (fieldsOf none rs) := by
  change parseFields false (f.text :: fieldsOf none rs) = _
  rw [parseFields, if_pos h]

/-- A long original path is read as a record, unless the parser panics on it. -/
theorem parseFields_long (h : ¬ byteLen f.text < 4)
    (hes : parseFields false (fieldsOf (some f) rs) = some es) :
    ∃ xy path x y rest, splitAtByte 3 f.text = some (xy, path) ∧ byteChar xy 0 = some x ∧
      parseFields (x = 'R' ∨ x = 'C') (fieldsOf none rs) = some rest ∧
      es = entryOf x y path :: rest := by
  change parseFields false (f.text :: fieldsOf none rs) = _ at hes
  rw [parseFields, if_neg h] at hes
  simp only [bind, Option.bind_eq_some_iff, pure, Option.some.injEq] at hes
  obtain ⟨⟨xy, path⟩, hsplit, x, hx, y, -, rest, hrest, hes⟩ := hes
  exact ⟨xy, path, x, y, rest, hsplit, hx, hrest, hes.symm⟩

/-- No record is left without an entry. -/
theorem length_le_of_parseFields (h : parseFields false (fieldsOf p rs) = some es) :
    rs.length ≤ es.length := by
  induction rs generalizing p es with
  | nil => exact Nat.zero_le _
  | cons r rs ih =>
    have hnone {es : List GitEntry} (h : parseFields false (fieldsOf none (r :: rs)) = some es) :
        (r :: rs).length ≤ es.length := by
      rw [parseFields_cons, Option.map_eq_some_iff] at h
      obtain ⟨rest, hrest, rfl⟩ := h
      exact Nat.succ_le_succ (ih hrest)
    cases p with
    | none => exact hnone h
    | some f =>
      by_cases hshort : byteLen f.text < 4
      · exact hnone (parseFields_short hshort ▸ h)
      · obtain ⟨xy, path, x, y, rest, -, -, hrest, rfl⟩ := parseFields_long hshort h
        cases hskip : decide (x = 'R' ∨ x = 'C') with
        | false =>
          rw [hskip] at hrest
          exact Nat.le_succ_of_le (hnone hrest)
        | true =>
          rw [hskip, parseFields_skip] at hrest
          exact Nat.succ_le_succ (ih hrest)

theorem describes_entryOf_iff {x y : Char} (hx : x = 'R' ∨ x = 'C') :
    Describes r (entryOf x y path) ↔ path = r.path.text ∧ r.Staged ∧ ¬ r.Unmerged := by
  have hentry : (entryOf x y path).staged = true ∧ (entryOf x y path).status ≠ "conflicted" := by
    rcases hx with rfl | rfl <;> simp [entryOf, statusOf]
  constructor
  · intro h
    refine ⟨?_, h.staged.mp hentry.1, fun hunmerged => hentry.2 (h.conflicted hunmerged)⟩
    exact String.ofList_injective h.path
  · rintro ⟨rfl, hstaged, hunmerged⟩
    exact ⟨rfl, iff_of_true hentry.1 hstaged, fun h => absurd h hunmerged⟩

/-- A long original path takes the place of the next record, and passes for it when it ends as
its path. -/
theorem parseFields_masked_iff (hshort : ¬ byteLen f.text < 4) :
    (∃ es, parseFields false (fieldsOf (some f) (r :: rs)) = some es ∧
        List.Forall₂ Describes (r :: rs) es) ↔
      Masks f r ∧ ∃ es, parseFields false (fieldsOf r.orig rs) = some es ∧
        List.Forall₂ Describes rs es := by
  rw [Masks]
  constructor
  · rintro ⟨es, hes, hall⟩
    obtain ⟨xy, path, x, y, rest, hsplit, hx, hrest, rfl⟩ := parseFields_long hshort hes
    obtain ⟨hentry, htail⟩ := List.forall₂_cons.mp hall
    have hskip : x = 'R' ∨ x = 'C' := by
      by_contra hkeep
      rw [decide_eq_false hkeep] at hrest
      have hlen := length_le_of_parseFields hrest
      rw [List.length_cons, htail.length_eq] at hlen
      omega
    obtain ⟨rfl, hmask⟩ := (describes_entryOf_iff hskip).mp hentry
    rw [decide_eq_true hskip, parseFields_skip] at hrest
    refine ⟨⟨⟨xy, hsplit, ?_⟩, hmask⟩, rest, hrest, htail⟩
    simpa only [hx, Option.some.injEq] using hskip
  · rintro ⟨⟨⟨xy, hsplit, hx⟩, hmask⟩, rest, hrest, hall⟩
    obtain ⟨x, hx', hskip⟩ : ∃ x, byteChar xy 0 = some x ∧ (x = 'R' ∨ x = 'C') := by
      rcases hx with hx | hx
      · exact ⟨_, hx, .inl rfl⟩
      · exact ⟨_, hx, .inr rfl⟩
    have hlen : 1 < byteLen xy := by
      rw [byteLen_of_splitAtByte hsplit]
      omega
    obtain ⟨y, hy⟩ := Option.isSome_iff_exists.mp (byteChar_isSome hlen)
    refine ⟨entryOf x y r.path.text :: rest, ?_,
      .cons ((describes_entryOf_iff hskip).mpr ⟨rfl, hmask⟩) hall⟩
    change parseFields false (f.text :: fieldsOf none (r :: rs)) = _
    rw [parseFields, if_neg hshort, hsplit]
    simp only [bind, pure, Option.bind_some, hx', hy, decide_eq_true hskip, parseFields_skip,
      hrest]

theorem parseFields_describes_iff :
    (∃ es, parseFields false (fieldsOf p rs) = some es ∧ List.Forall₂ Describes rs es) ↔
      Clean p rs := by
  induction rs generalizing p with
  | nil =>
    cases p with
    | none => exact iff_of_true ⟨[], rfl, .nil⟩ trivial
    | some f =>
      by_cases hshort : byteLen f.text < 4
      · exact iff_of_true ⟨[], parseFields_short hshort, .nil⟩ hshort
      · refine iff_of_false ?_ hshort
        rintro ⟨es, hes, hall⟩
        obtain ⟨_, _, _, _, _, -, -, -, rfl⟩ := parseFields_long hshort hes
        cases hall
  | cons r rs ih =>
    have hnone : (∃ es, parseFields false (fieldsOf none (r :: rs)) = some es ∧
        List.Forall₂ Describes (r :: rs) es) ↔ r.Coded ∧ Clean r.stray rs := by
      rw [parseFields_cons, ← ih, ← describes_entry_iff]
      constructor
      · rintro ⟨es, hes, hall⟩
        obtain ⟨rest, hrest, rfl⟩ := Option.map_eq_some_iff.mp hes
        obtain ⟨hentry, hall⟩ := List.forall₂_cons.mp hall
        exact ⟨hentry, rest, hrest, hall⟩
      · rintro ⟨hentry, rest, hrest, hall⟩
        exact ⟨_, Option.map_eq_some_iff.mpr ⟨rest, hrest, rfl⟩, .cons hentry hall⟩
    cases p with
    | none => exact hnone
    | some f =>
      rw [Clean]
      split
      · next hshort => rw [parseFields_short hshort, hnone]
      · next hshort =>
        rw [← ih]
        exact parseFields_masked_iff hshort

/-- The parser returns the records git prints exactly when no unmerged pair is coded by another
letter, and no original path behind a work tree rename is read as a record of its own. -/
theorem parsed_iff_clean (rs : List StatusRecord) : ParsedAs rs ↔ Clean none rs := by
  rw [ParsedAs, parsePorcelainZ, splitOn_encode]
  exact parseFields_describes_iff

/-! ## Records it does not find -/

def pathOf (s : String) (h : s.toList ≠ [] ∧ nul ∉ s.toList) : Path := ⟨s.toList, h.1, h.2⟩

/-- A file renamed in the work tree only. -/
def renamedInWorktree : StatusRecord where
  x := .unmodified
  y := .renamed
  path := pathOf "b.txt" (by decide)
  orig := some (pathOf "a.txt" (by decide))
  moved_iff := rfl

/-- The original path of the rename comes back as a file `xt`. -/
theorem worktree_rename_invents_entry : ¬ ∀ rs, ParsedAs rs := by
  intro h
  obtain ⟨es, hes, hall⟩ := h [renamedInWorktree]
  have hpaths : (parsePorcelainZ (encode [renamedInWorktree])).map (·.map (·.path)) =
      some ["b.txt", "xt"] := by decide +kernel
  rw [hes, Option.map_some, Option.some.injEq] at hpaths
  have hlen := congrArg List.length hpaths
  rw [List.length_map, ← hall.length_eq] at hlen
  cases hlen

end ValyriaApp.Bridge
