import Mathlib.Data.Char
import Mathlib.Data.List.DropRight
import Mathlib.Data.List.Lex
import Mathlib.Data.List.Sort
import ValyriaApp.Bridge.Workspace
import ValyriaApp.Lib.FileTree

/-! # Reading below the workspace root

Every path that comes in is taken relative to the root and resolved, links
included; what it resolves to must lie below the root. A file is read up to a
cap in bytes and shown as text when what was read is UTF-8.
-/

namespace ValyriaApp.Bridge
open FileTree Lib

/-! ## The file system -/

structure FileSystem where
  top : Node
  isDir : ∃ entries, top = .dir entries
  distinct : ∀ path entries, top.at? path = some (.dir entries) → (entries.map Prod.fst).Nodup
  /-- How many links may be crossed on one path. -/
  maxLinks : ℕ
  /-- The length in the metadata of what is neither a regular file nor a link. -/
  len : NamePath → ℕ

/-- `canonicalize` of an absolute path. -/
def FileSystem.canonicalize (F : FileSystem) (path : OsPath) : Except WalkError NamePath :=
  if 0 ∈ path then .error .invalidInput
  else walk F.top F.maxLinks [] (path.splitOn slash)

/-- `metadata` and `file_type` of a directory entry, which follow no link. -/
inductive EntryKind where
  | dir
  | file
  | symlink
  | other
  deriving DecidableEq

def kindOf : Node → EntryKind
  | .dir _ => .dir
  | .file _ => .file
  | .symlink _ => .symlink
  | .other => .other

def FileSystem.size (F : FileSystem) (path : NamePath) : Node → ℕ
  | .file content => content.size
  | .symlink target => target.length
  | _ => F.len path

theorem FileSystem.real_nil (F : FileSystem) : F.top.Real [] := by
  obtain ⟨entries, h⟩ := F.isDir
  exact ⟨F.top, Node.at?_nil, by rw [h]; rfl⟩

theorem FileSystem.canonicalize_eq_ok_iff {F : FileSystem} {path : OsPath}
    {canonical : NamePath} : F.canonicalize path = .ok canonical ↔
      0 ∉ path ∧ Walks F.top canonical F.maxLinks [] (path.splitOn slash) := by
  rw [FileSystem.canonicalize, ← walk_eq_ok_iff]
  split
  · next h0 => simp [h0]
  · next h0 => simp [h0]

theorem FileSystem.canonicalize_real {F : FileSystem} {path : OsPath} {canonical : NamePath}
    (h : F.canonicalize path = .ok canonical) : F.top.Real canonical := by
  exact (F.canonicalize_eq_ok_iff.mp h).2.real F.real_nil

/-! ## Resolving -/

/-- Where an I/O error comes from. -/
inductive IoSource where
  | path (e : WalkError)
  | notARegularFile
  deriving DecidableEq

inductive FsError where
  | pathEscape (rel : List Char)
  | fs (path : OsPath) (source : IoSource)
  deriving DecidableEq

def FsError.code : FsError → String
  | .pathEscape _ => "bridge.fs.path_escape"
  | .fs _ _ => "bridge.fs.io"

/-- The root is the canonical path the user authorized. -/
structure WorkspaceFs where
  fs : FileSystem
  root : NamePath
  real : fs.top.Real root

def WorkspaceFs.new (F : FileSystem) (root : OsPath) : Except FsError WorkspaceFs :=
  match h : F.canonicalize root with
  | .ok canonical => .ok ⟨F, canonical, F.canonicalize_real h⟩
  | .error source => .error (.fs root (.path source))

/-- `Component`, on Unix. -/
inductive Component where
  | rootDir
  | curDir
  | parentDir
  | normal (name : List UInt8)
  deriving DecidableEq

def componentOf (s : List UInt8) : Option Component :=
  if s = [] ∨ s = [dot] then none
  else if s = [dot, dot] then some .parentDir
  else some (.normal s)

/-- `Path::components`: empty segments are skipped, and `.` too unless it stands first. -/
def components (path : OsPath) : List Component :=
  let segments := path.splitOn slash
  (if path.head? = some slash then [.rootDir]
    else if segments.head? = some [dot] then [.curDir] else []) ++ segments.filterMap componentOf

/-- `trim_start_matches(['/', '\\'])`. -/
def trimSeparators (rel : List Char) : List Char := rel.dropWhile fun c => c = '/' ∨ c = '\\'

/-- Only names and `.` may stand in a path from outside. -/
def Component.allowed : Component → Bool
  | .normal _ => true
  | .curDir => true
  | _ => false

def WorkspaceFs.resolve (W : WorkspaceFs) (rel : List Char) : Except FsError NamePath :=
  let candidate := Utf8.encode (trimSeparators rel)
  if (components candidate).all Component.allowed then
    let joined := join (pathBytes W.root) candidate
    match W.fs.canonicalize joined with
    | .error source => .error (.fs joined (.path source))
    | .ok canonical => if W.root <+: canonical then .ok canonical else .error (.pathEscape rel)
  else .error (.pathEscape rel)

/-! ## Listing -/

def normalizeRel (rel : List Char) : List Char :=
  (trimSeparators rel).map fun c => if c = '\\' then '/' else c

theorem map_of_not_mem_backslash {cs : List Char} (h : '\\' ∉ cs) :
    (cs.map fun c => if c = '\\' then '/' else c) = cs := by
  conv_rhs => rw [← List.map_id cs]
  apply List.map_congr_left
  intro c hc
  rw [if_neg]
  · rfl
  · rintro rfl
    exact h hc

def joinRel (parent name : List Char) : List Char :=
  let p := normalizeRel parent
  if p = [] ∨ p = ['.'] then name else p.rdropWhile (· = '/') ++ '/' :: name

/-- The Unicode tables behind `to_lowercase`. -/
structure CaseTables where
  lower : Char → List Char
  lower_ne_nil : ∀ c, lower c ≠ []
  cased : Char → Bool
  caseIgnorable : Char → Bool

namespace CaseTables

variable (U : CaseTables)

def caseIgnorableThenCased (cs : List Char) : Bool :=
  (cs.dropWhile U.caseIgnorable).head?.any U.cased

/-- A capital sigma at the end of a word becomes the final one. -/
def mapUppercaseSigma (before after : List Char) : Char :=
  if U.caseIgnorableThenCased before && !U.caseIgnorableThenCased after then 'ς' else 'σ'

/-- `before` is what stands before, last character first. -/
def toLowercaseFrom : List Char → List Char → List Char
  | _, [] => []
  | before, c :: cs =>
    (if c = 'Σ' then [U.mapUppercaseSigma before cs] else U.lower c) ++
      toLowercaseFrom (c :: before) cs

def toLowercase (cs : List Char) : List Char := U.toLowercaseFrom [] cs

end CaseTables

/-- Lower case for ASCII letters only. -/
def asciiCase : CaseTables where
  lower c := [c.toLower]
  lower_ne_nil _ := List.cons_ne_nil _ _
  cased := Char.isAlpha
  caseIgnorable _ := false

structure DirEntry where
  path : List Char
  name : List Char
  kind : EntryKind
  size : ℕ

/-- `read_dir` of a canonical path. -/
def WorkspaceFs.readDir (W : WorkspaceFs) (abs : NamePath) : Option (List (FileName × Node)) :=
  match W.fs.top.at? abs with
  | some (.dir entries) => some entries
  | _ => none

theorem readDir_eq_some_iff {W : WorkspaceFs} {abs : NamePath}
    {entries : List (FileName × Node)} :
    W.readDir abs = some entries ↔ W.fs.top.at? abs = some (.dir entries) := by
  rw [WorkspaceFs.readDir]
  split
  · next hdir => simp [hdir]
  · next hdir =>
    constructor
    · rintro ⟨⟩
    · intro h
      exact absurd h (hdir entries)

def WorkspaceFs.dirEntry (W : WorkspaceFs) (rel : List Char) (abs : NamePath)
    (e : FileName × Node) : DirEntry where
  path := joinRel rel (Utf8.fromUtf8Lossy e.1.bytes)
  name := Utf8.fromUtf8Lossy e.1.bytes
  kind := kindOf e.2
  size := W.fs.size (abs ++ [e.1]) e.2

/-- Directories come first, then names in lower case decide. -/
def listedBefore (U : CaseTables) (a b : DirEntry) : Bool :=
  if a.kind = .dir ∧ b.kind ≠ .dir then true
  else if a.kind ≠ .dir ∧ b.kind = .dir then false
  else decide (U.toLowercase a.name ≤ U.toLowercase b.name)

def WorkspaceFs.listDir (W : WorkspaceFs) (U : CaseTables) (rel : List Char) :
    Except FsError (List DirEntry) := do
  let abs ← W.resolve rel
  match W.readDir abs with
  | none => .error (.fs (pathBytes abs) (.path .notADirectory))
  | some entries => .ok ((entries.map (W.dirEntry rel abs)).mergeSort (listedBefore U))

/-! ## Reading a file -/

def maxFileBytes : ℕ := 2 * 1024 * 1024

def sniffBytes : ℕ := 8192

inductive FileEncoding where
  | utf8
  | binary
  deriving DecidableEq

structure FileView where
  path : List Char
  encoding : FileEncoding
  text : Option (List Char)
  byteLen : ℕ
  truncated : Bool

def readCapped (content : ByteArray) (cap : ℕ) : ByteArray := content.extract 0 cap

/-- `String::from_utf8`. -/
def fromUtf8 (bytes : ByteArray) : Option (List Char) := bytes.utf8Decode?.map Array.toList

def WorkspaceFs.readFile (W : WorkspaceFs) (rel : List Char) : Except FsError FileView := do
  let abs ← W.resolve rel
  match W.fs.top.at? abs with
  | some (.file content) =>
    let byteLen := content.size
    let truncated := decide (maxFileBytes < byteLen)
    let bytes := readCapped content maxFileBytes
    let looksBinary := (bytes.data.toList.take sniffBytes).any (· = 0)
    if looksBinary then
      .ok { path := normalizeRel rel, encoding := .binary, text := none, byteLen, truncated }
    else match fromUtf8 bytes with
      | some text =>
        .ok { path := normalizeRel rel, encoding := .utf8, text := some text, byteLen, truncated }
      | none =>
        .ok { path := normalizeRel rel, encoding := .binary, text := none, byteLen, truncated }
  | some _ => .error (.fs (pathBytes abs) .notARegularFile)
  | none => .error (.fs (pathBytes abs) (.path .notFound))

/-! ## What resolves -/

section Resolve

variable {W : WorkspaceFs} {rel : List Char} {abs : NamePath} {path : OsPath}

/-- The segments of a path from outside. -/
def segmentsOf (rel : List Char) : List (List UInt8) :=
  (Utf8.encode (trimSeparators rel)).splitOn slash

theorem components_allowed_iff (hrel : path.head? ≠ some slash) :
    (components path).all Component.allowed = true ↔ [dot, dot] ∉ path.splitOn slash := by
  rw [components, if_neg hrel, List.all_append, Bool.and_eq_true]
  constructor
  · rintro ⟨-, h⟩ hup
    have hmem : .parentDir ∈ (path.splitOn slash).filterMap componentOf :=
      List.mem_filterMap.mpr ⟨[dot, dot], hup, rfl⟩
    exact absurd (List.all_eq_true.mp h _ hmem) (by decide)
  · intro hup
    constructor
    · split <;> rfl
    · rw [List.all_eq_true]
      intro c hc
      obtain ⟨s, hs, hc⟩ := List.mem_filterMap.mp hc
      have hne : s ≠ [dot, dot] := by
        rintro rfl
        exact hup hs
      rw [componentOf, if_neg hne] at hc
      split at hc
      · cases hc
      · cases hc
        rfl

theorem trimSeparators_head_ne : ∀ c ∈ (trimSeparators rel).head?, ¬ (c = '/' ∨ c = '\\') := by
  intro c hc hsep
  rw [trimSeparators] at hc
  have hneg := List.head?_dropWhile_not (fun c => decide (c = '/' ∨ c = '\\')) rel
  rw [Option.mem_def.mp hc] at hneg
  simp [hsep] at hneg

theorem encode_head_ne_slash {cs : List Char} (h : cs.head? ≠ some '/') :
    (Utf8.encode cs).head? ≠ some slash := by
  intro hhead
  cases cs with
  | nil => cases hhead
  | cons c cs =>
    rw [Utf8.encode_cons, List.head?_append_of_ne_nil _ String.utf8EncodeChar_ne_nil] at hhead
    have hmem := (Utf8.mem_utf8EncodeChar_iff (by decide)).mp (List.mem_of_head? hhead)
    exact h (congrArg some (Char.toNat_inj.mp hmem))

theorem splitOn_flatMap (names : NamePath) (xs rest : List UInt8) (hxs : slash ∉ xs) :
    (xs ++ (names.flatMap (fun name => slash :: name.bytes) ++ slash :: rest)).splitOn slash =
      xs :: (names.map FileName.bytes ++ rest.splitOn slash) := by
  induction names generalizing xs with
  | nil => exact List.splitOn_append_cons_self_of_not_mem hxs rest
  | cons name names ih =>
    rw [List.flatMap_cons, List.cons_append, List.cons_append,
      List.splitOn_append_cons_self_of_not_mem hxs, List.append_assoc,
      ih name.bytes name.legal.2.2.2.1]
    rfl

theorem join_pathBytes (root : NamePath) (hrel : path.head? ≠ some slash) :
    join (pathBytes root) path =
      root.flatMap (fun name => slash :: name.bytes) ++ slash :: path := by
  rw [join, if_neg hrel, pathBytes]
  rcases List.eq_nil_or_concat root with rfl | ⟨root, name, rfl⟩
  · rfl
  · have hlast : (slash :: name.bytes).getLast? ≠ some slash := by
      rw [← List.singleton_append, List.getLast?_append_of_ne_nil _ name.legal.1]
      intro h
      exact name.legal.2.2.2.1 (List.mem_of_getLast? h)
    have hjoined : ((root ++ [name]).flatMap fun name => slash :: name.bytes).getLast? ≠
        some slash := by
      rwa [List.flatMap_append, List.flatMap_singleton,
        List.getLast?_append_of_ne_nil _ (List.cons_ne_nil _ _)]
    have hne : root ++ [name] ≠ [] := by simp
    rw [List.concat_eq_append, if_neg hne, if_neg]
    · rfl
    · rintro (h | h)
      · simp at h
      · exact hjoined h

theorem zero_mem_join_iff (root : NamePath) (hrel : path.head? ≠ some slash) :
    0 ∈ join (pathBytes root) path ↔ 0 ∈ path := by
  rw [join_pathBytes root hrel, List.mem_append, List.mem_cons, List.mem_flatMap]
  constructor
  · rintro (⟨name, -, h⟩ | h | h)
    · rcases List.mem_cons.mp h with h | h
      · cases h
      · exact absurd h name.legal.2.2.2.2
    · cases h
    · exact h
  · intro h
    exact Or.inr (Or.inr h)

/-- The walk from the top goes down to the root first. -/
theorem walks_join_iff (hrel : path.head? ≠ some slash) :
    Walks W.fs.top abs W.fs.maxLinks [] ((join (pathBytes W.root) path).splitOn slash) ↔
      Walks W.fs.top abs W.fs.maxLinks W.root (path.splitOn slash) := by
  obtain ⟨entries, htop⟩ := W.fs.isDir
  have hdir : W.fs.top.at? [] = some (.dir entries) := by rw [Node.at?_nil, htop]
  have hsplit := splitOn_flatMap W.root [] path List.not_mem_nil
  have hreal : W.fs.top.Real ([] ++ W.root) := W.real
  rw [join_pathBytes _ hrel, ← List.nil_append (_ ++ _), hsplit,
    walks_here_iff hdir (Or.inl rfl), walks_names_iff hreal, List.nil_append]

theorem resolve_eq_ok_iff_canonicalize : W.resolve rel = .ok abs ↔
    (components (Utf8.encode (trimSeparators rel))).all Component.allowed = true ∧
      W.fs.canonicalize (join (pathBytes W.root) (Utf8.encode (trimSeparators rel))) = .ok abs ∧
        W.root <+: abs := by
  rw [WorkspaceFs.resolve]
  split
  · next hallowed =>
    simp only [hallowed, true_and]
    cases W.fs.canonicalize (join (pathBytes W.root) (Utf8.encode (trimSeparators rel))) with
    | error source => simp
    | ok canonical =>
      simp only [Except.ok.injEq]
      split
      · next hroot =>
        constructor
        · rintro ⟨⟩
          exact ⟨rfl, hroot⟩
        · rintro ⟨rfl, -⟩
          rfl
      · next hroot =>
        constructor
        · rintro ⟨⟩
        · rintro ⟨rfl, h⟩
          exact absurd h hroot
  · next hallowed => simp [hallowed]

theorem resolve_eq_ok_iff : W.resolve rel = .ok abs ↔
    [dot, dot] ∉ segmentsOf rel ∧ 0 ∉ Utf8.encode (trimSeparators rel) ∧
      Walks W.fs.top abs W.fs.maxLinks W.root (segmentsOf rel) ∧ W.root <+: abs := by
  have hhead : (Utf8.encode (trimSeparators rel)).head? ≠ some slash :=
    encode_head_ne_slash fun h => trimSeparators_head_ne _ h (Or.inl rfl)
  rw [resolve_eq_ok_iff_canonicalize, components_allowed_iff hhead,
    FileSystem.canonicalize_eq_ok_iff, zero_mem_join_iff _ hhead, walks_join_iff hhead,
    and_assoc, segmentsOf]

end Resolve

/-! ## Large text files -/

section Text

variable {W : WorkspaceFs} {rel cs text : List Char} {abs : NamePath} {content : ByteArray}
  {cap : ℕ}

/-- A file of the characters `cs` is shown as text: all of it, or up to the cap but for what the
cap cuts off of one character. -/
def StaysText (W : WorkspaceFs) (rel cs : List Char) : Prop :=
  ∃ view, W.readFile rel = .ok view ∧ view.encoding = .utf8 ∧
    view.byteLen = cs.utf8Encode.size ∧
    (view.truncated = true ↔ maxFileBytes < cs.utf8Encode.size) ∧
    ∃ text, view.text = some text ∧ text <+: cs ∧
      (cs.utf8Encode.size ≤ maxFileBytes → text = cs) ∧
      cs.utf8Encode.size ≤
        text.utf8Encode.size + (cs.utf8Encode.size - maxFileBytes) + 3

/-- The byte position `cap` does not fall inside a character. -/
def OnBoundary (cs : List Char) (cap : ℕ) : Prop :=
  ∃ before after, cs = before ++ after ∧ before.utf8Encode.size = cap

theorem readCapped_of_le (h : content.size ≤ cap) : readCapped content cap = content := by
  rw [readCapped, ← Nat.max_eq_left h, ByteArray.extract_zero_max_size]

theorem fromUtf8_utf8Encode : fromUtf8 cs.utf8Encode = some cs := by
  rw [fromUtf8, List.utf8Decode?_utf8Encode, Option.map_some, List.toList_toArray]

/-- What is read up to a boundary is decoded, and nothing else is. -/
theorem fromUtf8_readCapped (hlt : cap < cs.utf8Encode.size) :
    fromUtf8 (readCapped cs.utf8Encode cap) = some text ↔
      text <+: cs ∧ text.utf8Encode.size = cap := by
  constructor
  · intro h
    obtain ⟨chars, hchars, rfl⟩ := Option.map_eq_some_iff.mp h
    obtain ⟨m, hm⟩ := ByteArray.isSome_utf8Decode?_iff.mp (Option.isSome_of_mem hchars)
    rw [hm, List.utf8Decode?_utf8Encode] at hchars
    obtain rfl := Option.some.inj hchars
    rw [List.toList_toArray]
    constructor
    · apply List.isPrefix_of_utf8Encode_append_eq_utf8Encode
        (cs.utf8Encode.extract cap cs.utf8Encode.size)
      rw [← hm, readCapped, ← ByteArray.extract_eq_extract_append_extract cap (Nat.zero_le _)
        hlt.le, ByteArray.extract_zero_size]
    · rw [← hm, readCapped, ByteArray.size_extract, Nat.min_eq_left hlt.le, Nat.sub_zero]
  · rintro ⟨⟨after, rfl⟩, hsize⟩
    rw [readCapped, List.utf8Encode_append, ByteArray.extract_append_eq_left hsize.symm,
      fromUtf8_utf8Encode]

theorem readFile_of_text (hresolve : W.resolve rel = .ok abs)
    (hfile : W.fs.top.at? abs = some (.file content))
    (hsniff : 0 ∉ content.data.toList.take sniffBytes) :
    W.readFile rel = .ok {
      path := normalizeRel rel
      encoding := if (fromUtf8 (readCapped content maxFileBytes)).isSome then .utf8 else .binary
      text := fromUtf8 (readCapped content maxFileBytes)
      byteLen := content.size
      truncated := decide (maxFileBytes < content.size) } := by
  have htake : (readCapped content maxFileBytes).data.toList.take sniffBytes =
      content.data.toList.take sniffBytes := by
    rw [readCapped, ByteArray.data_extract, Array.toList_extract]
    simp [List.take_take, maxFileBytes, sniffBytes]
  have hany : ((readCapped content maxFileBytes).data.toList.take sniffBytes).any (· = 0) =
      false := by
    rw [htake, List.any_eq_false]
    intro b hb hzero
    exact hsniff (of_decide_eq_true hzero ▸ hb)
  rw [WorkspaceFs.readFile, hresolve]
  simp only [bind, Except.bind, hfile, hany]
  cases fromUtf8 (readCapped content maxFileBytes) with
  | none => rfl
  | some text => rfl

/-- A file of text stays text exactly when the cap does not cut one of its characters. -/
theorem staysText_iff (hresolve : W.resolve rel = .ok abs)
    (hfile : W.fs.top.at? abs = some (.file cs.utf8Encode))
    (hsniff : 0 ∉ cs.utf8Encode.data.toList.take sniffBytes) :
    StaysText W rel cs ↔
      cs.utf8Encode.size ≤ maxFileBytes ∨ OnBoundary cs maxFileBytes := by
  rw [StaysText, readFile_of_text hresolve hfile hsniff]
  simp only [Except.ok.injEq, exists_eq_left', decide_eq_true_iff]
  rcases Nat.lt_or_ge maxFileBytes cs.utf8Encode.size with hlt | hle
  · have hdecode := @fromUtf8_readCapped cs
    constructor
    · rintro ⟨-, -, -, text, htext, -⟩
      obtain ⟨⟨after, rfl⟩, hsize⟩ := (hdecode hlt).mp htext
      exact Or.inr ⟨text, after, rfl, hsize⟩
    · rintro (hle | ⟨text, after, rfl, hsize⟩)
      · exact absurd hle (Nat.not_le.mpr hlt)
      · have htext := (hdecode hlt).mpr ⟨List.prefix_append text after, hsize⟩
        rw [htext]
        refine ⟨rfl, trivial, trivial, text, rfl, List.prefix_append text after, ?_, ?_⟩
        · intro hle
          exact absurd hle (Nat.not_le.mpr hlt)
        · omega
  · refine iff_of_true ?_ (Or.inl hle)
    rw [readCapped_of_le hle, fromUtf8_utf8Encode]
    exact ⟨rfl, trivial, trivial, cs, rfl, List.prefix_refl cs, fun _ => rfl, by omega⟩

/-- The name `f`. -/
def nameF : FileName := ⟨[102], by decide⟩

theorem at?_single {name : FileName} {path : NamePath} {node : Node}
    (h : (Node.dir [(name, .file content)]).at? path = some node) :
    path = [] ∧ node = .dir [(name, .file content)] ∨ path = [name] ∧ node = .file content := by
  cases path with
  | nil =>
    cases h
    exact Or.inl ⟨rfl, rfl⟩
  | cons first path =>
    rw [Node.at?, Option.bind_eq_some_iff] at h
    obtain ⟨⟨name', node'⟩, hlookup, h⟩ := h
    obtain ⟨rfl, rfl⟩ := Prod.mk.inj (List.mem_singleton.mp (mem_of_lookup hlookup))
    obtain rfl := FileName.ext_bytes (bytes_of_lookup hlookup)
    cases path with
    | nil =>
      cases h
      exact Or.inr ⟨rfl, rfl⟩
    | cons second path => simp [Node.at?] at h

/-- A workspace with one file. -/
def oneFile (content : ByteArray) : WorkspaceFs where
  fs := {
    top := .dir [(nameF, .file content)]
    isDir := ⟨_, rfl⟩
    distinct := by
      intro path entries h
      rcases at?_single h with ⟨-, h⟩ | ⟨-, h⟩
      · cases h
        simp
      · cases h
    maxLinks := 40
    len := fun _ => 0 }
  root := []
  real := ⟨_, rfl, rfl⟩

theorem oneFile_resolve (content : ByteArray) :
    (oneFile content).resolve ['f'] = .ok [nameF] := rfl

theorem data_utf8Encode : cs.utf8Encode.data.toList = Utf8.encode cs := by
  rw [List.utf8Encode, List.data_toByteArray, List.toList_toArray, Utf8.encode]

theorem size_utf8Encode : cs.utf8Encode.size = (cs.map Char.utf8Size).sum := by
  induction cs with
  | nil => rfl
  | cons c cs ih =>
    rw [← List.singleton_append, List.utf8Encode_append, ByteArray.size_append, ih,
      List.utf8Encode_singleton, List.size_toByteArray, String.length_utf8EncodeChar]
    simp

/-- A character of two bytes after `n` bytes. -/
def cutText (n : ℕ) : List Char := List.replicate n 'a' ++ ['é']

theorem size_cutText (n : ℕ) : (cutText n).utf8Encode.size = n + 2 := by
  have ha : 'a'.utf8Size = 1 := by decide
  have he : 'é'.utf8Size = 2 := by decide
  simp [cutText, size_utf8Encode, ha, he]

theorem zero_not_mem_cutText (n : ℕ) :
    0 ∉ (cutText n).utf8Encode.data.toList.take sniffBytes := by
  intro h
  have h := List.mem_of_mem_take h
  rw [data_utf8Encode] at h
  have hmem : '\x00' ∈ cutText n := (Utf8.mem_encode_iff (by decide)).mp h
  simp [cutText] at hmem

/-- The cap falls before the last character of a file that is larger. -/
theorem staysText_beyond_cap :
    maxFileBytes < (cutText maxFileBytes).utf8Encode.size ∧
      StaysText (oneFile (cutText maxFileBytes).utf8Encode) ['f'] (cutText maxFileBytes) := by
  constructor
  · rw [size_cutText]
    exact Nat.lt_add_of_pos_right Nat.two_pos
  · refine (staysText_iff (oneFile_resolve _) rfl (zero_not_mem_cutText _)).mpr (Or.inr ?_)
    refine ⟨List.replicate maxFileBytes 'a', ['é'], rfl, ?_⟩
    have ha : 'a'.utf8Size = 1 := by decide
    simp [size_utf8Encode, ha]

theorem size_ne_of_prefix_cutText {n : ℕ} (h : text <+: cutText n) :
    text.utf8Encode.size ≠ n + 1 := by
  rcases List.prefix_concat_iff.mp h with rfl | h
  · rw [← cutText, size_cutText]
    omega
  · obtain ⟨hlength, htext⟩ := List.prefix_replicate_iff.mp h
    have ha : 'a'.utf8Size = 1 := by decide
    rw [htext]
    simp [size_utf8Encode, ha]
    omega

/-- The cap falls inside the last character. -/
theorem cutText_not_text :
    ∃ n abs, (oneFile (cutText n).utf8Encode).resolve ['f'] = .ok abs ∧
      (oneFile (cutText n).utf8Encode).fs.top.at? abs = some (.file (cutText n).utf8Encode) ∧
      0 ∉ (cutText n).utf8Encode.data.toList.take sniffBytes ∧
      ¬ StaysText (oneFile (cutText n).utf8Encode) ['f'] (cutText n) := by
  obtain ⟨n, hn⟩ : ∃ n, n + 1 = maxFileBytes :=
    ⟨maxFileBytes - 1, Nat.sub_add_cancel (by norm_num [maxFileBytes])⟩
  have hfile : (oneFile (cutText n).utf8Encode).fs.top.at? [nameF] =
      some (.file (cutText n).utf8Encode) := rfl
  refine ⟨n, _, oneFile_resolve _, hfile, zero_not_mem_cutText n, ?_⟩
  rintro ⟨view, hview, -, -, -, text, htext, -⟩
  rw [readFile_of_text (oneFile_resolve _) hfile (zero_not_mem_cutText n)] at hview
  obtain rfl := Except.ok.inj hview
  simp only at htext
  have hlt : maxFileBytes < (cutText n).utf8Encode.size := by
    rw [size_cutText, ← hn]
    omega
  obtain ⟨htext, hcap⟩ := (fromUtf8_readCapped hlt).mp htext
  exact size_ne_of_prefix_cutText htext (hcap.trans hn.symm)

end Text

end ValyriaApp.Bridge
