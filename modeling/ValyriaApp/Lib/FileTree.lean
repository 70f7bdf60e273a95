import Mathlib.Data.List.Basic

/-! # Unix file trees

A directory maps names to files, directories, symbolic links and other things.
A path is resolved segment by segment from a directory on; a symbolic link is
replaced by its target, at most a given number of times. What a path resolves to
is never itself a link and does not lie below one.
-/

namespace FileTree

def slash : UInt8 := 47

def dot : UInt8 := 46

/-- The bytes of a file name: not empty, no `/` and no NUL, and neither `.` nor `..`. -/
def Legal (bytes : List UInt8) : Prop :=
  bytes ≠ [] ∧ bytes ≠ [dot] ∧ bytes ≠ [dot, dot] ∧ slash ∉ bytes ∧ 0 ∉ bytes

instance (bytes : List UInt8) : Decidable (Legal bytes) :=
  inferInstanceAs (Decidable (_ ∧ _ ∧ _ ∧ _ ∧ _))

structure FileName where
  bytes : List UInt8
  legal : Legal bytes
  deriving DecidableEq

/-- The names on the way down from a directory. -/
abbrev NamePath := List FileName

/-- The entries of a directory stand in the order it enumerates them. -/
inductive Node where
  | file (content : ByteArray)
  | dir (entries : List (FileName × Node))
  | symlink (target : List UInt8)
  | other

def Node.isLink : Node → Bool
  | .symlink _ => true
  | _ => false

/-- The entry of that name. -/
def lookup (name : List UInt8) (entries : List (FileName × Node)) : Option (FileName × Node) :=
  entries.find? fun e => e.1.bytes = name

/-- The node at a path, without following links. -/
def Node.at? : Node → NamePath → Option Node
  | node, [] => some node
  | .dir entries, name :: path => (lookup name.bytes entries).bind fun e => e.2.at? path
  | _, _ :: _ => none

/-- The bytes of an absolute path. -/
def pathBytes (path : NamePath) : List UInt8 :=
  if path = [] then [slash] else path.flatMap fun name => slash :: name.bytes

/-! ## Walking a path -/

inductive WalkError where
  | notFound
  | notADirectory
  | tooManyLinks
  | invalidInput
  deriving DecidableEq

/-- Walk from the directory `cur`; `follow` goes on where a link leads. -/
def walkFrom (top : Node)
    (follow : NamePath → List (List UInt8) → Except WalkError NamePath) :
    NamePath → List (List UInt8) → Except WalkError NamePath
  | cur, [] => .ok cur
  | cur, s :: rest =>
    match top.at? cur with
    | some (.dir entries) =>
      if s = [] ∨ s = [dot] then walkFrom top follow cur rest
      else if s = [dot, dot] then walkFrom top follow cur.dropLast rest
      else match lookup s entries with
        | none => .error .notFound
        | some (name, node) => match node with
          | .symlink target =>
            follow (if target.head? = some slash then [] else cur) (target.splitOn slash ++ rest)
          | _ => walkFrom top follow (cur ++ [name]) rest
    | _ => .error .notADirectory

/-- Follow at most `links` links. -/
def walk (top : Node) : ℕ → NamePath → List (List UInt8) → Except WalkError NamePath
  | 0 => walkFrom top fun _ _ => .error .tooManyLinks
  | links + 1 => walkFrom top (walk top links)

/-- The segments lead from a directory to `dest`. -/
inductive Walks (top : Node) (dest : NamePath) : ℕ → NamePath → List (List UInt8) → Prop where
  | done {links : ℕ} : Walks top dest links dest []
  | here {links : ℕ} {cur : NamePath} {s : List UInt8} {rest : List (List UInt8)}
      {entries : List (FileName × Node)} (hdir : top.at? cur = some (.dir entries))
      (hs : s = [] ∨ s = [dot]) (h : Walks top dest links cur rest) :
      Walks top dest links cur (s :: rest)
  | up {links : ℕ} {cur : NamePath} {rest : List (List UInt8)}
      {entries : List (FileName × Node)} (hdir : top.at? cur = some (.dir entries))
      (h : Walks top dest links cur.dropLast rest) : Walks top dest links cur ([dot, dot] :: rest)
  | name {links : ℕ} {cur : NamePath} {s : List UInt8} {rest : List (List UInt8)}
      {entries : List (FileName × Node)} {name : FileName} {node : Node}
      (hdir : top.at? cur = some (.dir entries)) (hlookup : lookup s entries = some (name, node))
      (hlink : node.isLink = false) (h : Walks top dest links (cur ++ [name]) rest) :
      Walks top dest links cur (s :: rest)
  | link {links : ℕ} {cur : NamePath} {s : List UInt8} {rest : List (List UInt8)}
      {entries : List (FileName × Node)} {name : FileName} {target : List UInt8}
      (hdir : top.at? cur = some (.dir entries))
      (hlookup : lookup s entries = some (name, .symlink target))
      (h : Walks top dest links (if target.head? = some slash then [] else cur)
        (target.splitOn slash ++ rest)) :
      Walks top dest (links + 1) cur (s :: rest)

variable {top node : Node} {entries : List (FileName × Node)} {name : FileName}
  {cur dest mid path : NamePath} {links : ℕ} {s : List UInt8} {segs rest : List (List UInt8)}

/-! ## Looking up -/

theorem bytes_of_lookup (h : lookup s entries = some (name, node)) : name.bytes = s := by
  simpa using List.find?_some h

theorem FileName.ext_bytes {a b : FileName} (h : a.bytes = b.bytes) : a = b := by
  cases a
  cases b
  cases h
  rfl

/-- A segment with an entry is a name. -/
theorem legal_of_lookup (h : lookup s entries = some (name, node)) : Legal s :=
  bytes_of_lookup h ▸ name.legal

theorem Legal.not_here (h : Legal s) : ¬ (s = [] ∨ s = [dot]) := by
  rintro (hs | hs)
  · exact h.1 hs
  · exact h.2.1 hs

theorem mem_of_lookup (h : lookup s entries = some (name, node)) : (name, node) ∈ entries :=
  List.mem_of_find?_eq_some h

theorem lookup_of_mem (hnodup : (entries.map Prod.fst).Nodup) (h : (name, node) ∈ entries) :
    lookup name.bytes entries = some (name, node) := by
  induction entries with
  | nil => cases h
  | cons e entries ih =>
    obtain ⟨hfirst, hnodup⟩ := List.nodup_cons.mp hnodup
    rcases List.mem_cons.mp h with rfl | h
    · simp [lookup]
    · have hne : e.1.bytes ≠ name.bytes := by
        intro heq
        exact hfirst (FileName.ext_bytes heq ▸ List.mem_map_of_mem (f := Prod.fst) h)
      rw [lookup, List.find?_cons_of_neg (by simpa using hne)]
      exact ih hnodup h

@[simp] theorem Node.at?_nil : node.at? [] = some node := by
  cases node <;> rfl

/-- What holds of a directory, and of all that lies below each of its entries, holds everywhere. -/
theorem Node.of_at?_dir {P : NamePath → Node → Prop} {path : NamePath}
    (htop : P [] (.dir entries))
    (hentries : ∀ e ∈ entries, ∀ path node, e.2.at? path = some node → P (e.1 :: path) node)
    (h : (Node.dir entries).at? path = some node) : P path node := by
  cases path with
  | nil =>
    cases h
    exact htop
  | cons name path =>
    rw [Node.at?, Option.bind_eq_some_iff] at h
    obtain ⟨⟨name', node'⟩, hlookup, h⟩ := h
    obtain rfl := FileName.ext_bytes (bytes_of_lookup hlookup)
    exact hentries _ (mem_of_lookup hlookup) _ _ h

theorem Node.of_at?_file {P : NamePath → Node → Prop} {content : ByteArray} {path : NamePath}
    (htop : P [] (.file content)) (h : (Node.file content).at? path = some node) :
    P path node := by
  cases path with
  | nil =>
    cases h
    exact htop
  | cons name path => simp [Node.at?] at h

theorem Node.at?_append {p q : NamePath} :
    node.at? (p ++ q) = (node.at? p).bind fun n => n.at? q := by
  induction p generalizing node with
  | nil => simp
  | cons name p ih =>
    cases node with
    | dir entries =>
      rw [List.cons_append, Node.at?, Node.at?]
      cases lookup name.bytes entries with
      | none => rfl
      | some e => exact ih
    | _ => rfl

theorem Node.at?_concat (hdir : top.at? cur = some (.dir entries))
    (hlookup : lookup name.bytes entries = some (name, node)) :
    top.at? (cur ++ [name]) = some node := by
  rw [Node.at?_append, hdir, Option.bind_some, Node.at?, hlookup, Option.bind_some, Node.at?_nil]

/-- Above a node there is a directory with an entry for it. -/
theorem Node.exists_dir_of_at?_concat (h : top.at? (cur ++ [name]) = some node) :
    ∃ entries, top.at? cur = some (.dir entries) ∧
      lookup name.bytes entries = some (name, node) := by
  rw [Node.at?_append, Option.bind_eq_some_iff] at h
  obtain ⟨parent, hparent, hchild⟩ := h
  cases parent with
  | dir entries =>
    rw [Node.at?, Option.bind_eq_some_iff] at hchild
    obtain ⟨⟨name', node'⟩, hlookup, hnode⟩ := hchild
    rw [Node.at?_nil] at hnode
    cases hnode
    obtain rfl := FileName.ext_bytes (bytes_of_lookup hlookup)
    exact ⟨entries, hparent, hlookup⟩
  | _ => simp [Node.at?] at hchild

/-- There is something at the path, and it is not a link. -/
def Node.Real (top : Node) (path : NamePath) : Prop :=
  ∃ node, top.at? path = some node ∧ node.isLink = false

theorem Node.Real.dropLast (h : top.Real path) : top.Real path.dropLast := by
  rcases List.eq_nil_or_concat path with rfl | ⟨path, name, rfl⟩
  · exact h
  · obtain ⟨node, hnode, -⟩ := h
    rw [List.concat_eq_append] at hnode
    obtain ⟨entries, hdir, -⟩ := Node.exists_dir_of_at?_concat hnode
    rw [List.concat_eq_append, List.dropLast_concat]
    exact ⟨.dir entries, hdir, rfl⟩

/-! ## The function computes the relation -/

theorem walk_nil : walk top links cur [] = .ok cur := by
  cases links <;> rfl

theorem walk_of_walks (h : Walks top dest links cur segs) : walk top links cur segs = .ok dest := by
  induction h with
  | done => exact walk_nil
  | @here links cur s rest entries hdir hs _ ih =>
    cases links <;> rw [walk, walkFrom] <;> simp only [hdir, if_pos hs] <;> exact ih
  | @up links cur rest entries hdir _ ih =>
    cases links <;> rw [walk, walkFrom] <;> simp only [hdir] <;> exact ih
  | @name links cur s rest entries name node hdir hlookup hlink _ ih =>
    obtain ⟨hnil, hdot, hup, -⟩ := legal_of_lookup hlookup
    cases node with
    | symlink target => cases hlink
    | _ =>
      cases links <;> rw [walk, walkFrom] <;>
        simp only [hdir, hlookup, hnil, hdot, hup, or_self, if_false] <;> exact ih
  | @link links cur s rest entries name target hdir hlookup _ ih =>
    obtain ⟨hnil, hdot, hup, -⟩ := legal_of_lookup hlookup
    rw [walk, walkFrom]
    simp only [hdir, hlookup, hnil, hdot, hup, or_self, if_false]
    exact ih

theorem walks_of_walkFrom {follow : NamePath → List (List UInt8) → Except WalkError NamePath}
    (hfollow : ∀ {cur : NamePath} {target : List UInt8} {s : List UInt8}
      {rest : List (List UInt8)} {entries : List (FileName × Node)} {name : FileName},
      top.at? cur = some (.dir entries) → lookup s entries = some (name, .symlink target) →
      follow (if target.head? = some slash then [] else cur) (target.splitOn slash ++ rest) =
        .ok dest → Walks top dest links cur (s :: rest))
    (h : walkFrom top follow cur segs = .ok dest) : Walks top dest links cur segs := by
  induction segs generalizing cur with
  | nil =>
    cases h
    exact .done
  | cons s rest ih =>
    rw [walkFrom] at h
    split at h
    · next entries hdir =>
      split at h
      · next hs => exact .here hdir hs (ih h)
      · split at h
        · next hup =>
          subst hup
          exact .up hdir (ih h)
        · split at h
          · cases h
          · next name node hlookup =>
            cases node with
            | symlink target => exact hfollow hdir hlookup h
            | _ => exact .name hdir hlookup rfl (ih h)
    · cases h

theorem walk_eq_ok_iff : walk top links cur segs = .ok dest ↔ Walks top dest links cur segs := by
  constructor
  · induction links generalizing cur segs with
    | zero => exact walks_of_walkFrom fun _ _ h => by cases h
    | succ links ih => exact walks_of_walkFrom fun hdir hlookup h => .link hdir hlookup (ih h)
  · exact walk_of_walks

/-! ## Where a walk leads -/

/-- The names among the segments. -/
def names (segs : List (List UInt8)) : List (List UInt8) := segs.filter fun s => s ≠ [] ∧ s ≠ [dot]

theorem names_append {segs segs' : List (List UInt8)} :
    names (segs ++ segs') = names segs ++ names segs' :=
  List.filter_append ..

theorem names_cons_here (hs : s = [] ∨ s = [dot]) : names (s :: rest) = names rest := by
  rw [names, List.filter_cons_of_neg]
  · rfl
  · rcases hs with rfl | rfl
    · simp
    · simp

theorem names_cons (hnil : s ≠ []) (hdot : s ≠ [dot]) : names (s :: rest) = s :: names rest := by
  rw [names, List.filter_cons_of_pos (by simp [hnil, hdot]), names]

theorem mem_names : s ∈ names segs ↔ s ∈ segs ∧ s ≠ [] ∧ s ≠ [dot] := by
  rw [names, List.mem_filter, decide_eq_true_iff]

theorem Walks.real (h : Walks top dest links cur segs) (hcur : top.Real cur) : top.Real dest := by
  induction h with
  | done => exact hcur
  | here _ _ _ ih => exact ih hcur
  | up _ _ ih => exact ih hcur.dropLast
  | name hdir hlookup hlink _ ih =>
    refine ih ⟨_, Node.at?_concat hdir ?_, hlink⟩
    rwa [bytes_of_lookup hlookup]
  | @link links cur s rest entries name target hdir hlookup _ ih =>
    apply ih
    split
    · rcases hcur with ⟨node, -, -⟩
      cases top with
      | symlink target => cases cur <;> simp [Node.at?] at hdir
      | _ => exact ⟨_, Node.at?_nil, rfl⟩
    · exact hcur

theorem Walks.append (h : Walks top mid links cur segs)
    (hrest : ∀ links, Walks top dest links mid rest) :
    Walks top dest links cur (segs ++ rest) := by
  induction h with
  | done => exact hrest _
  | here hdir hs _ ih => exact .here hdir hs ih
  | up hdir _ ih => exact .up hdir ih
  | name hdir hlookup hlink _ ih => exact .name hdir hlookup hlink ih
  | link hdir hlookup _ ih =>
    rw [List.append_assoc] at ih
    exact .link hdir hlookup ih

theorem Walks.split (h : Walks top dest links cur (segs ++ rest)) :
    ∃ mid links', Walks top mid links cur segs ∧ Walks top dest links' mid rest := by
  generalize hl : segs ++ rest = l at h
  induction h generalizing segs with
  | @done links =>
    obtain ⟨rfl, rfl⟩ := List.append_eq_nil_iff.mp hl
    exact ⟨dest, links, .done, .done⟩
  | @here links cur s rest' entries hdir hs h ih =>
    cases segs with
    | nil =>
      obtain rfl : rest = s :: rest' := hl
      exact ⟨cur, links, .done, .here hdir hs h⟩
    | cons s' segs =>
      obtain ⟨rfl, rfl⟩ := List.cons.inj hl
      obtain ⟨mid, links', hmid, hrest⟩ := ih rfl
      exact ⟨mid, links', .here hdir hs hmid, hrest⟩
  | @up links cur rest' entries hdir h ih =>
    cases segs with
    | nil =>
      obtain rfl : rest = [dot, dot] :: rest' := hl
      exact ⟨cur, links, .done, .up hdir h⟩
    | cons s' segs =>
      obtain ⟨rfl, rfl⟩ := List.cons.inj hl
      obtain ⟨mid, links', hmid, hrest⟩ := ih rfl
      exact ⟨mid, links', .up hdir hmid, hrest⟩
  | @name links cur s rest' entries name node hdir hlookup hlink h ih =>
    cases segs with
    | nil =>
      obtain rfl : rest = s :: rest' := hl
      exact ⟨cur, links, .done, .name hdir hlookup hlink h⟩
    | cons s' segs =>
      obtain ⟨rfl, rfl⟩ := List.cons.inj hl
      obtain ⟨mid, links', hmid, hrest⟩ := ih rfl
      exact ⟨mid, links', .name hdir hlookup hlink hmid, hrest⟩
  | @link links cur s rest' entries name target hdir hlookup h ih =>
    cases segs with
    | nil =>
      obtain rfl : rest = s :: rest' := hl
      exact ⟨cur, links + 1, .done, .link hdir hlookup h⟩
    | cons s' segs =>
      obtain ⟨rfl, rfl⟩ := List.cons.inj hl
      obtain ⟨mid, links', hmid, hrest⟩ := ih (List.append_assoc _ _ _)
      exact ⟨mid, links', .link hdir hlookup hmid, hrest⟩

/-- Segments that stay stay. -/
theorem Walks.of_here (h : Walks top dest links cur segs)
    (hsegs : ∀ s ∈ segs, s = [] ∨ s = [dot]) : dest = cur := by
  induction h with
  | done => rfl
  | here _ _ _ ih => exact ih fun s hs => hsegs s (List.mem_cons_of_mem _ hs)
  | up _ _ _ =>
    rcases hsegs _ List.mem_cons_self with h | h
    · cases h
    · cases h
  | name _ hlookup _ _ _ =>
    exact absurd (hsegs _ List.mem_cons_self) (legal_of_lookup hlookup).not_here
  | link _ hlookup _ _ =>
    exact absurd (hsegs _ List.mem_cons_self) (legal_of_lookup hlookup).not_here

/-- A segment that stays may be left out. -/
theorem walks_here_iff (hdir : top.at? cur = some (.dir entries)) (hs : s = [] ∨ s = [dot]) :
    Walks top dest links cur (s :: rest) ↔ Walks top dest links cur rest := by
  constructor
  · intro h
    cases h with
    | here _ _ h => exact h
    | up _ _ =>
      rcases hs with hs | hs
      · cases hs
      · cases hs
    | name _ hlookup _ _ => exact absurd hs (legal_of_lookup hlookup).not_here
    | link _ hlookup _ => exact absurd hs (legal_of_lookup hlookup).not_here
  · exact .here hdir hs

/-- A walk along the names to something that is not a link gets there. -/
theorem walks_names_iff (hreal : top.Real (cur ++ path)) :
    Walks top dest links cur (path.map FileName.bytes ++ rest) ↔
      Walks top dest links (cur ++ path) rest := by
  induction path generalizing cur with
  | nil => simp
  | cons name path ih =>
    obtain ⟨node, hnode, hlink⟩ := hreal
    have hcur : cur ++ name :: path = (cur ++ [name]) ++ path := by simp
    rw [hcur] at hnode ⊢
    rw [← ih ⟨node, hnode, hlink⟩, List.map_cons, List.cons_append]
    rw [Node.at?_append, Option.bind_eq_some_iff] at hnode
    obtain ⟨child, hchild, hrest⟩ := hnode
    obtain ⟨entries, hdir, hlookup⟩ := Node.exists_dir_of_at?_concat hchild
    have hchildLink : child.isLink = false := by
      cases child with
      | symlink target =>
        cases path with
        | nil =>
          rw [Node.at?_nil] at hrest
          rw [← Option.some.inj hrest] at hlink
          exact hlink
        | cons => simp [Node.at?] at hrest
      | _ => rfl
    constructor
    · intro h
      generalize hl : name.bytes :: (path.map FileName.bytes ++ rest) = l at h
      cases h with
      | done => cases hl
      | here _ hs _ => exact absurd ((List.cons.inj hl).1 ▸ hs) name.legal.not_here
      | up _ _ => exact absurd (List.cons.inj hl).1 name.legal.2.2.1
      | name hdir' hlookup' _ h =>
        obtain ⟨rfl, rfl⟩ := List.cons.inj hl
        obtain rfl : entries = _ := by simpa using hdir.symm.trans hdir'
        obtain ⟨rfl, -⟩ : name = _ ∧ _ := by simpa using hlookup.symm.trans hlookup'
        exact h
      | link hdir' hlookup' _ =>
        obtain ⟨rfl, rfl⟩ := List.cons.inj hl
        obtain rfl : entries = _ := by simpa using hdir.symm.trans hdir'
        obtain ⟨-, rfl⟩ : _ ∧ child = _ := by simpa using hlookup.symm.trans hlookup'
        cases hchildLink
    · exact .name hdir hlookup hchildLink

/-- Without links and without `..` a walk goes down the names that are there. -/
theorem Walks.bytes_eq (h : Walks top dest links cur segs)
    (hlinks : ∀ path target, top.at? path ≠ some (.symlink target)) (hup : [dot, dot] ∉ segs) :
    dest.map FileName.bytes = cur.map FileName.bytes ++ names segs := by
  induction h with
  | done => simp [names]
  | here hdir hs _ ih =>
    rw [ih fun h => hup (List.mem_cons_of_mem _ h), names_cons_here hs]
  | up _ _ _ => exact absurd List.mem_cons_self hup
  | @name links cur s rest entries name node hdir hlookup hlink _ ih =>
    obtain ⟨hnil, hdot, -⟩ := legal_of_lookup hlookup
    rw [ih fun h => hup (List.mem_cons_of_mem _ h), names_cons hnil hdot]
    simp [bytes_of_lookup hlookup]
  | @link links cur s rest entries name target hdir hlookup _ _ =>
    refine absurd (Node.at?_concat hdir ?_) (hlinks (cur ++ [name]) target)
    rwa [bytes_of_lookup hlookup]

/-- A walk down existing names to a directory gets there, whatever stays in between. -/
theorem walks_of_at? (hdest : top.at? (cur ++ path) = some (.dir entries))
    (hnames : names segs = path.map FileName.bytes) : Walks top (cur ++ path) links cur segs := by
  induction segs generalizing cur path with
  | nil =>
    obtain rfl : path = [] := by simpa [names] using hnames.symm
    rw [List.append_nil]
    exact .done
  | cons s rest ih =>
    cases path with
    | nil =>
      have hs : s = [] ∨ s = [dot] := by
        by_contra hs
        rw [not_or] at hs
        rw [names_cons hs.1 hs.2] at hnames
        cases hnames
      rw [names_cons_here hs] at hnames
      rw [List.append_nil] at hdest ⊢
      refine .here hdest hs ?_
      have hstay : top.at? (cur ++ []) = some (.dir entries) := by rwa [List.append_nil]
      have h := ih hstay hnames
      rwa [List.append_nil] at h
    | cons name path =>
      have hcur : cur ++ name :: path = (cur ++ [name]) ++ path := by simp
      rw [hcur] at hdest ⊢
      obtain ⟨child, hchild, hrest⟩ := Option.bind_eq_some_iff.mp (Node.at?_append ▸ hdest)
      obtain ⟨es, hdir, hlookup⟩ := Node.exists_dir_of_at?_concat hchild
      by_cases hs : s = [] ∨ s = [dot]
      · rw [names_cons_here hs] at hnames
        refine .here hdir hs ?_
        rw [← hcur] at hdest ⊢
        exact ih hdest hnames
      · rw [not_or] at hs
        rw [names_cons hs.1 hs.2, List.map_cons] at hnames
        obtain ⟨rfl, htail⟩ := List.cons.inj hnames
        refine .name hdir hlookup ?_ (ih hdest htail)
        cases child with
        | symlink target => cases path <;> simp [Node.at?] at hrest
        | _ => rfl

/-! ## A single way down -/

/-- Directories with one entry each, down to `node`. -/
def chain : NamePath → Node → Node
  | [], node => node
  | name :: path, node => .dir [(name, chain path node)]

theorem chain_at? : (chain path node).at? path = some node := by
  induction path with
  | nil => exact Node.at?_nil
  | cons name path ih => simp [chain, Node.at?, lookup, ih]

/-- What holds of all that lies below `node` and of directories with one entry holds of all that
lies in the chain. -/
theorem of_chain_at? {P : Node → Prop} (hnode : ∀ p n, node.at? p = some n → P n)
    (hdir : ∀ name n, P (.dir [(name, n)])) {p : NamePath} {n : Node}
    (h : (chain path node).at? p = some n) : P n := by
  induction path generalizing p with
  | nil => exact hnode p n h
  | cons name path ih =>
    cases p with
    | nil =>
      cases h
      exact hdir _ _
    | cons name' p =>
      rw [chain, Node.at?, Option.bind_eq_some_iff] at h
      obtain ⟨e, he, h⟩ := h
      obtain rfl := List.mem_singleton.mp (List.mem_of_find?_eq_some he)
      exact ih h

end FileTree
