import Mathlib.Data.Set.Card
import ValyriaApp.Bridge.WorkspaceFs
import ValyriaApp.Lib.BreadthFirst
import ValyriaApp.Rpc.Frame

/-! # Searching for file names

The search goes through the tree breadth first, stays out of some directories
and stops at a limit. What it finds is the beginning of what the traversal of
the whole tree finds, and that is each matching file once.
-/

namespace ValyriaApp.Bridge
open BreadthFirst FileTree Lib

/-! ## The search -/

/-- Names of directories that are left out. -/
def searchPrune : List (List Char) :=
  [".git", "node_modules", "target", "dist", "build", ".next", ".venv", "__pycache__"].map
    String.toList

def pruned (name : FileName) : Bool := Utf8.fromUtf8Lossy name.bytes ∈ searchPrune

/-- `Path::strip_prefix`. -/
def stripRoot (root path : NamePath) : Option NamePath :=
  if root <+: path then some (path.drop root.length) else none

/-- The bytes of a relative path. -/
def relBytes (path : NamePath) : OsPath := [slash].intercalate (path.map FileName.bytes)

/-- A relative path as it is shown. -/
def relText (path : NamePath) : List Char :=
  (Utf8.fromUtf8Lossy (relBytes path)).map fun c => if c = '\\' then '/' else c

namespace WorkspaceFs

variable (W : WorkspaceFs) (U : CaseTables) (q : List Char) (limit : ℕ)

/-- The loop over the entries of one directory, with the queue and the results so far. -/
def scan (dir : NamePath) : List (FileName × Node) → List NamePath → List (List Char) →
    List NamePath × List (List Char)
  | [], queue, out => (queue, out)
  | (name, node) :: entries, queue, out =>
    match kindOf node with
    | .dir =>
      if pruned name then scan dir entries queue out
      else scan dir entries (queue ++ [dir ++ [name]]) out
    | .file =>
      match stripRoot W.root (dir ++ [name]) with
      | none => scan dir entries queue out
      | some rel =>
        if q <:+: U.toLowercase (relText rel) then
          if limit ≤ (out ++ [relText rel]).length then (queue, out ++ [relText rel])
          else scan dir entries queue (out ++ [relText rel])
        else scan dir entries queue out
    | _ => scan dir entries queue out

/-! ## What the directories hold -/

/-- The directory the entry is, when the search goes into it. -/
def subdir (dir : NamePath) (e : FileName × Node) : Option NamePath :=
  if kindOf e.2 = .dir ∧ pruned e.1 = false then some (dir ++ [e.1]) else none

/-- The file the entry is, when its path matches. -/
def hit (dir : NamePath) (e : FileName × Node) : Option NamePath :=
  if kindOf e.2 = .file then
    (stripRoot W.root (dir ++ [e.1])).filter fun rel => q <:+: U.toLowercase (relText rel)
  else none

def subdirs (dir : NamePath) : List NamePath :=
  ((W.readDir dir).getD []).filterMap (subdir dir)

def hits (dir : NamePath) : List NamePath :=
  ((W.readDir dir).getD []).filterMap (W.hit U q dir)

/-- The size of the tree at a path. -/
noncomputable def treeSize (path : NamePath) : ℕ := (W.fs.top.at? path).elim 1 sizeOf

end WorkspaceFs

/-! ## One entry -/

section Entry

variable {W : WorkspaceFs} {U : CaseTables} {q : List Char} {limit : ℕ} {dir : NamePath}
  {name : FileName} {node : Node}

theorem subdir_eq_some (hkind : kindOf node = .dir) (hpruned : pruned name = false) :
    WorkspaceFs.subdir dir (name, node) = some (dir ++ [name]) :=
  if_pos ⟨hkind, hpruned⟩

theorem subdir_eq_none (h : kindOf node ≠ .dir ∨ pruned name = true) :
    WorkspaceFs.subdir dir (name, node) = none := by
  rw [WorkspaceFs.subdir, if_neg]
  rintro ⟨hkind, hpruned⟩
  rcases h with h | h
  · exact h hkind
  · rw [hpruned] at h
    cases h

theorem hit_eq_none (h : kindOf node ≠ .file) : W.hit U q dir (name, node) = none :=
  if_neg h

theorem hit_file (h : kindOf node = .file) : W.hit U q dir (name, node) =
    (stripRoot W.root (dir ++ [name])).filter fun rel => q <:+: U.toLowercase (relText rel) :=
  if_pos h

/-- An entry is left out, is a directory that goes into the queue, or is a file that is found. -/
theorem scan_cases (W : WorkspaceFs) (U : CaseTables) (q : List Char) (limit : ℕ) (dir : NamePath)
    (e : FileName × Node) (entries : List (FileName × Node)) (queue : List NamePath)
    (out : List (List Char)) :
    (WorkspaceFs.subdir dir e = none ∧ W.hit U q dir e = none ∧
      W.scan U q limit dir (e :: entries) queue out = W.scan U q limit dir entries queue out) ∨
    (∃ path, WorkspaceFs.subdir dir e = some path ∧ W.hit U q dir e = none ∧
      W.scan U q limit dir (e :: entries) queue out =
        W.scan U q limit dir entries (queue ++ [path]) out) ∨
    ∃ rel, WorkspaceFs.subdir dir e = none ∧ W.hit U q dir e = some rel ∧
      W.scan U q limit dir (e :: entries) queue out =
        if limit ≤ (out ++ [relText rel]).length then (queue, out ++ [relText rel])
        else W.scan U q limit dir entries queue (out ++ [relText rel]) := by
  obtain ⟨name, node⟩ := e
  rw [WorkspaceFs.scan]
  cases hkind : kindOf node with
  | dir =>
    have hhit : W.hit U q dir (name, node) = none := hit_eq_none (by simp [hkind])
    cases hpruned : pruned name with
    | true => exact Or.inl ⟨subdir_eq_none (Or.inr hpruned), hhit, rfl⟩
    | false => exact Or.inr (Or.inl ⟨_, subdir_eq_some hkind hpruned, hhit, rfl⟩)
  | file =>
    have hsubdir : WorkspaceFs.subdir dir (name, node) = none :=
      subdir_eq_none (Or.inl (by simp [hkind]))
    have hhit := @hit_file W U q dir name node hkind
    cases hrel : stripRoot W.root (dir ++ [name]) with
    | none =>
      rw [hrel, Option.filter_none] at hhit
      exact Or.inl ⟨hsubdir, hhit, rfl⟩
    | some rel =>
      rw [hrel] at hhit
      by_cases hmatch : q <:+: U.toLowercase (relText rel)
      · rw [Option.filter_some_pos (by simpa)] at hhit
        exact Or.inr (Or.inr ⟨rel, hsubdir, hhit, if_pos hmatch⟩)
      · rw [Option.filter_some_neg (by simpa)] at hhit
        exact Or.inl ⟨hsubdir, hhit, if_neg hmatch⟩
  | _ =>
    exact Or.inl ⟨subdir_eq_none (Or.inl (by simp [hkind])), hit_eq_none (by simp [hkind]), rfl⟩

end Entry

section Sizes

variable {W : WorkspaceFs} {U : CaseTables} {q : List Char} {limit : ℕ} {dir : NamePath}
  {entries : List (FileName × Node)} {name : FileName} {node : Node}

/-- An entry of a directory stands at the path of the directory and its name. -/
theorem at?_entry (hread : W.readDir dir = some entries) (hmem : (name, node) ∈ entries) :
    W.fs.top.at? (dir ++ [name]) = some node := by
  have hdir := readDir_eq_some_iff.mp hread
  exact Node.at?_concat hdir (lookup_of_mem (W.fs.distinct dir entries hdir) hmem)

theorem sum_subdirs_le (W : WorkspaceFs) (dir : NamePath) (l : List (FileName × Node))
    (h : ∀ e ∈ l, W.fs.top.at? (dir ++ [e.1]) = some e.2) :
    ((l.filterMap (WorkspaceFs.subdir dir)).map W.treeSize).sum ≤ sizeOf l := by
  induction l with
  | nil => simp
  | cons e l ih =>
    have hrest := ih fun e' he' => h e' (List.mem_cons_of_mem _ he')
    have hsize : W.treeSize (dir ++ [e.1]) = sizeOf e.2 := by
      rw [WorkspaceFs.treeSize, h e List.mem_cons_self, Option.elim_some]
    obtain ⟨name, node⟩ := e
    rw [List.filterMap_cons, WorkspaceFs.subdir]
    split
    · next hnone =>
      simp only [List.cons.sizeOf_spec, Prod.mk.sizeOf_spec]
      omega
    · next path hsome =>
      split at hsome
      · obtain rfl := Option.some.inj hsome
        simp only [List.map_cons, List.sum_cons, hsize, List.cons.sizeOf_spec,
          Prod.mk.sizeOf_spec]
        omega
      · cases hsome

theorem treeSize_pos (W : WorkspaceFs) (dir : NamePath) : 0 < W.treeSize dir := by
  rw [WorkspaceFs.treeSize]
  cases W.fs.top.at? dir with
  | none => exact Nat.one_pos
  | some node =>
    rw [Option.elim_some]
    cases node <;> simp

theorem size_subdirs (W : WorkspaceFs) (dir : NamePath) :
    ((W.subdirs dir).map W.treeSize).sum < W.treeSize dir := by
  rw [WorkspaceFs.subdirs]
  cases hread : W.readDir dir with
  | none => exact treeSize_pos W dir
  | some entries =>
    have hsum := sum_subdirs_le W dir entries fun e he => at?_entry hread he
    have hsize : W.treeSize dir = 1 + sizeOf entries := by
      rw [WorkspaceFs.treeSize, readDir_eq_some_iff.mp hread, Option.elim_some,
        Node.dir.sizeOf_spec]
    rw [Option.getD_some]
    omega

theorem exists_scan_queue (W : WorkspaceFs) (U : CaseTables) (q : List Char) (limit : ℕ)
    (dir : NamePath) (entries : List (FileName × Node)) (queue : List NamePath)
    (out : List (List Char)) :
    ∃ added, added.Sublist (entries.filterMap (WorkspaceFs.subdir dir)) ∧
      (W.scan U q limit dir entries queue out).1 = queue ++ added := by
  induction entries generalizing queue out with
  | nil => exact ⟨[], List.Sublist.refl _, (List.append_nil queue).symm⟩
  | cons e entries ih =>
    rcases scan_cases W U q limit dir e entries queue out with
      ⟨hsubdir, -, hscan⟩ | ⟨path, hsubdir, -, hscan⟩ | ⟨rel, hsubdir, -, hscan⟩
    · rw [hscan, List.filterMap_cons_none hsubdir]
      exact ih queue out
    · obtain ⟨added, hadded, hqueue⟩ := ih (queue ++ [path]) out
      rw [hscan, List.filterMap_cons_some hsubdir]
      exact ⟨path :: added, hadded.cons_cons _, by rw [hqueue, List.append_assoc]; rfl⟩
    · rw [hscan, List.filterMap_cons_none hsubdir]
      split
      · exact ⟨[], List.nil_sublist _, (List.append_nil queue).symm⟩
      · exact ih queue _

/-- A directory taken from the queue is larger than all its entries add. -/
theorem sum_scan_lt (hread : W.readDir dir = some entries) (queue : List NamePath)
    (out : List (List Char)) :
    (((W.scan U q limit dir entries queue out).1).map W.treeSize).sum <
      ((dir :: queue).map W.treeSize).sum := by
  obtain ⟨added, hadded, hqueue⟩ := exists_scan_queue W U q limit dir entries queue out
  have hsize := size_subdirs W dir
  rw [WorkspaceFs.subdirs, hread, Option.getD_some] at hsize
  have hle := (hadded.map W.treeSize).sum_le_sum fun _ _ => Nat.zero_le _
  rw [hqueue, List.map_append, List.sum_append, List.map_cons, List.sum_cons]
  omega

/-- Directories with their subdirectories that are searched. -/
noncomputable def WorkspaceFs.forest (W : WorkspaceFs) : Forest NamePath where
  children := W.subdirs
  size := W.treeSize
  size_children := size_subdirs W

theorem forest_children (W : WorkspaceFs) (dir : NamePath) :
    W.forest.children dir = ((W.readDir dir).getD []).filterMap (WorkspaceFs.subdir dir) := rfl

end Sizes

namespace WorkspaceFs

variable (W : WorkspaceFs) (U : CaseTables) (q : List Char) (limit : ℕ)

/-- The loop over the queue. -/
def searchLoop : List NamePath → List (List Char) → List (List Char)
  | [], out => out
  | dir :: queue, out =>
    if limit ≤ out.length then out
    else match _hread : W.readDir dir with
      | none => searchLoop queue out
      | some entries =>
        searchLoop (W.scan U q limit dir entries queue out).1
          (W.scan U q limit dir entries queue out).2
termination_by queue => (queue.map W.treeSize).sum
decreasing_by
  · have := treeSize_pos W dir
    rw [List.map_cons, List.sum_cons]
    omega
  · exact sum_scan_lt _hread queue out

def search (query : List Char) (limit : ℕ) : Except FsError (List (List Char)) :=
  let q := U.toLowercase (Rpc.trim query)
  if q.isEmpty then .ok []
  else .ok ((W.searchLoop U q limit [W.root] []).insertionSort (· ≤ ·))

end WorkspaceFs

/-! ## The limit -/

section Limit

variable {W : WorkspaceFs} {U : CaseTables} {q : List Char} {limit : ℕ} {dir : NamePath}
  {entries : List (FileName × Node)} {name : FileName} {node : Node} {queue : List NamePath}
  {out : List (List Char)}

/-- The loop over the entries finds the beginning of what they hold, and unless the limit is
reached it goes through all of them. -/
theorem scan_spec (hlt : out.length < limit) :
    (W.scan U q limit dir entries queue out).2 =
        (out ++ (entries.filterMap (W.hit U q dir)).map relText).take limit ∧
      (out.length + (entries.filterMap (W.hit U q dir)).length < limit →
        (W.scan U q limit dir entries queue out).1 =
          queue ++ entries.filterMap (WorkspaceFs.subdir dir)) := by
  induction entries generalizing queue out with
  | nil =>
    refine ⟨?_, fun _ => (List.append_nil queue).symm⟩
    rw [List.filterMap_nil, List.map_nil, List.append_nil, List.take_of_length_le hlt.le]
    rfl
  | cons e entries ih =>
    rcases scan_cases W U q limit dir e entries queue out with
      ⟨hsubdir, hhit, hscan⟩ | ⟨path, hsubdir, hhit, hscan⟩ | ⟨rel, hsubdir, hhit, hscan⟩
    · rw [hscan, List.filterMap_cons_none hsubdir, List.filterMap_cons_none hhit]
      exact ih hlt
    · rw [hscan, List.filterMap_cons_some hsubdir, List.filterMap_cons_none hhit,
        List.append_cons queue path (entries.filterMap (WorkspaceFs.subdir dir))]
      exact ih hlt
    · rw [hscan, List.filterMap_cons_none hsubdir, List.filterMap_cons_some hhit, List.map_cons,
        List.append_cons out (relText rel) ((entries.filterMap (W.hit U q dir)).map relText),
        List.length_cons]
      split
      · next hfull =>
        have hlen : (out ++ [relText rel]).length = limit := by
          rw [List.length_append, List.length_singleton] at hfull ⊢
          omega
        refine ⟨?_, fun hroom => ?_⟩
        · rw [← hlen, List.take_left]
        · rw [List.length_append, List.length_singleton] at hlen
          omega
      · next hroom =>
        obtain ⟨hout, hqueue⟩ := @ih queue _ (Nat.not_le.mp hroom)
        refine ⟨hout, fun hroom' => hqueue ?_⟩
        rw [List.length_append, List.length_singleton]
        omega

theorem searchLoop_of_unread (hroom : ¬ limit ≤ out.length) (hread : W.readDir dir = none) :
    W.searchLoop U q limit (dir :: queue) out = W.searchLoop U q limit queue out := by
  rw [WorkspaceFs.searchLoop, if_neg hroom]
  split
  · rfl
  · next entries hsome =>
    rw [hread] at hsome
    cases hsome

theorem searchLoop_of_read (hroom : ¬ limit ≤ out.length) (hread : W.readDir dir = some entries) :
    W.searchLoop U q limit (dir :: queue) out =
      W.searchLoop U q limit (W.scan U q limit dir entries queue out).1
        (W.scan U q limit dir entries queue out).2 := by
  rw [WorkspaceFs.searchLoop, if_neg hroom]
  split
  · next hnone =>
    rw [hread] at hnone
    cases hnone
  · next entries' hsome =>
    rw [hread] at hsome
    cases hsome
    rfl

/-- The loop over the queue finds the beginning of what the traversal finds. -/
theorem searchLoop_eq (hle : out.length ≤ limit) :
    W.searchLoop U q limit queue out =
      (out ++ (W.forest.traverse (W.hits U q) queue).map relText).take limit := by
  induction queue, out using WorkspaceFs.searchLoop.induct W U q limit with
  | case1 out =>
    rw [WorkspaceFs.searchLoop, Forest.traverse, List.map_nil, List.append_nil,
      List.take_of_length_le hle]
  | case2 dir queue out hfull =>
    rw [WorkspaceFs.searchLoop, if_pos hfull, ← le_antisymm hle hfull, List.take_left]
  | case3 dir queue out hroom hread ih =>
    have hhits : W.hits U q dir = [] := by
      rw [WorkspaceFs.hits, hread]
      rfl
    have hsubdirs : W.forest.children dir = [] := by
      rw [forest_children, hread]
      rfl
    rw [searchLoop_of_unread hroom hread, ih hle, Forest.traverse, hhits, hsubdirs,
      List.append_nil, List.nil_append]
  | case4 dir queue out hroom entries hread ih =>
    have hhits : W.hits U q dir = entries.filterMap (W.hit U q dir) := by
      rw [WorkspaceFs.hits, hread, Option.getD_some]
    have hsubdirs : W.forest.children dir = entries.filterMap (WorkspaceFs.subdir dir) := by
      rw [forest_children, hread, Option.getD_some]
    obtain ⟨hout, hqueue⟩ := @scan_spec W U q limit dir entries queue out (Nat.not_le.mp hroom)
    rw [searchLoop_of_read hroom hread, ih (by rw [hout]; exact List.length_take_le _ _), hout,
      Forest.traverse, hhits, hsubdirs, List.map_append, ← List.append_assoc]
    have hlength : (out ++ (entries.filterMap (W.hit U q dir)).map relText).length =
        out.length + (entries.filterMap (W.hit U q dir)).length := by
      rw [List.length_append, List.length_map]
    rcases Nat.lt_or_ge (out.length + (entries.filterMap (W.hit U q dir)).length) limit with
      hroom' | hfull
    · have htake := List.take_of_length_le (hlength.trans_le hroom'.le)
      rw [hqueue hroom', htake]
    · rw [← hlength] at hfull
      rw [List.take_append_of_le_length hfull, List.take_append_of_le_length, List.take_take,
        Nat.min_self]
      rw [List.length_take, Nat.min_eq_left hfull]

end Limit

/-! ## What is to be found -/

section Matching

variable {W : WorkspaceFs} {U : CaseTables} {q : List Char} {dir rel path path' : NamePath}
  {name name' : FileName} {node : Node}

theorem stripRoot_eq_some_iff {root : NamePath} :
    stripRoot root path = some rel ↔ root ++ rel = path := by
  rw [stripRoot]
  split
  · next hprefix =>
    obtain ⟨rest, rfl⟩ := hprefix
    simp [eq_comm]
  · next hprefix =>
    constructor
    · rintro ⟨⟩
    · rintro rfl
      exact absurd (List.prefix_append _ _) hprefix

theorem mem_readDir_iff :
    (name, node) ∈ (W.readDir dir).getD [] ↔ W.fs.top.at? (dir ++ [name]) = some node := by
  constructor
  · intro hmem
    cases hread : W.readDir dir with
    | none =>
      rw [hread] at hmem
      cases hmem
    | some entries =>
      rw [hread] at hmem
      exact at?_entry hread hmem
  · intro h
    obtain ⟨entries, hdir, hlookup⟩ := Node.exists_dir_of_at?_concat h
    rw [readDir_eq_some_iff.mpr hdir]
    exact mem_of_lookup hlookup

theorem kindOf_eq_dir_iff : kindOf node = .dir ↔ ∃ entries, node = .dir entries := by
  cases node <;> simp [kindOf]

theorem kindOf_eq_file_iff : kindOf node = .file ↔ ∃ content, node = .file content := by
  cases node <;> simp [kindOf]

theorem mem_children_iff : path ∈ W.forest.children dir ↔ ∃ name entries,
    W.fs.top.at? (dir ++ [name]) = some (.dir entries) ∧ pruned name = false ∧
      path = dir ++ [name] := by
  rw [forest_children, List.mem_filterMap]
  constructor
  · rintro ⟨⟨name, node⟩, hmem, hsub⟩
    rw [WorkspaceFs.subdir] at hsub
    split at hsub
    · next hdir =>
      obtain ⟨entries, rfl⟩ := kindOf_eq_dir_iff.mp hdir.1
      exact ⟨name, entries, mem_readDir_iff.mp hmem, hdir.2, (Option.some.inj hsub).symm⟩
    · cases hsub
  · rintro ⟨name, entries, hat, hpruned, rfl⟩
    exact ⟨(name, .dir entries), mem_readDir_iff.mpr hat, subdir_eq_some rfl hpruned⟩

theorem mem_hits_iff : rel ∈ W.hits U q dir ↔ ∃ name content,
    W.fs.top.at? (dir ++ [name]) = some (.file content) ∧ W.root ++ rel = dir ++ [name] ∧
      q <:+: U.toLowercase (relText rel) := by
  rw [WorkspaceFs.hits, List.mem_filterMap]
  constructor
  · rintro ⟨⟨name, node⟩, hmem, hhit⟩
    by_cases hkind : kindOf node = .file
    · rw [hit_file hkind, Option.filter_eq_some_iff, stripRoot_eq_some_iff,
        decide_eq_true_iff] at hhit
      obtain ⟨content, rfl⟩ := kindOf_eq_file_iff.mp hkind
      exact ⟨name, content, mem_readDir_iff.mp hmem, hhit⟩
    · rw [hit_eq_none hkind] at hhit
      cases hhit
  · rintro ⟨name, content, hat, hhit⟩
    refine ⟨(name, .file content), mem_readDir_iff.mpr hat, ?_⟩
    rwa [hit_file rfl, Option.filter_eq_some_iff, stripRoot_eq_some_iff, decide_eq_true_iff]

/-- The search goes down along names that are not pruned. -/
theorem exists_of_below (h : W.forest.Below dir path) :
    ∃ names, path = dir ++ names ∧ ∀ name ∈ names, pruned name = false := by
  induction h with
  | refl => exact ⟨[], (List.append_nil dir).symm, by simp⟩
  | tail _ hchild ih =>
    obtain ⟨names, rfl, hnames⟩ := ih
    obtain ⟨name, entries, -, hname, rfl⟩ := mem_children_iff.mp hchild
    refine ⟨names ++ [name], List.append_assoc .., ?_⟩
    intro name' hmem
    rcases List.mem_append.mp hmem with hmem | hmem
    · exact hnames name' hmem
    · rwa [List.mem_singleton.mp hmem]

theorem below_of_at? {names : NamePath} {entries : List (FileName × Node)}
    (hdir : W.fs.top.at? (dir ++ names) = some (.dir entries))
    (hnames : ∀ name ∈ names, pruned name = false) : W.forest.Below dir (dir ++ names) := by
  induction names using List.reverseRecOn generalizing entries with
  | nil =>
    rw [List.append_nil]
    exact Forest.below_refl
  | append_singleton names name ih =>
    rw [← List.append_assoc] at hdir ⊢
    obtain ⟨entries', hparent, -⟩ := Node.exists_dir_of_at?_concat hdir
    refine (ih hparent fun name' h => hnames name' (List.mem_append_left _ h)).tail ?_
    refine mem_children_iff.mpr ⟨name, entries, hdir, hnames name ?_, rfl⟩
    exact List.mem_append_right _ (List.mem_singleton_self name)

/-- The regular files whose paths below the root contain the query, up to case, and above which no
directory is pruned. -/
def WorkspaceFs.matching (W : WorkspaceFs) (U : CaseTables) (q : List Char) : Set NamePath :=
  {rel | (∃ content, W.fs.top.at? (W.root ++ rel) = some (.file content)) ∧
    q <:+: U.toLowercase (relText rel) ∧ ∀ name ∈ rel.dropLast, pruned name = false}

theorem relText_nil : relText [] = [] := rfl

theorem CaseTables.toLowercase_nil : U.toLowercase [] = [] := rfl

theorem mem_traverse_hits_iff (hq : q ≠ []) :
    rel ∈ W.forest.traverse (W.hits U q) [W.root] ↔ rel ∈ W.matching U q := by
  rw [Forest.mem_traverse]
  constructor
  · rintro ⟨root, hroot, dir, hbelow, hhit⟩
    obtain rfl := List.mem_singleton.mp hroot
    obtain ⟨names, rfl, hnames⟩ := exists_of_below hbelow
    obtain ⟨name, content, hat, hrel, hmatch⟩ := mem_hits_iff.mp hhit
    rw [← hrel] at hat
    rw [List.append_assoc, List.append_cancel_left_eq] at hrel
    refine ⟨⟨content, hat⟩, hmatch, ?_⟩
    rwa [hrel, List.dropLast_concat]
  · rintro ⟨⟨content, hat⟩, hmatch, hnames⟩
    rcases List.eq_nil_or_concat rel with rfl | ⟨names, name, rfl⟩
    · rw [relText_nil, CaseTables.toLowercase_nil, List.infix_nil] at hmatch
      exact absurd hmatch hq
    · rw [List.concat_eq_append] at hat hmatch hnames ⊢
      rw [List.dropLast_concat] at hnames
      rw [← List.append_assoc] at hat
      obtain ⟨entries, hdir, -⟩ := Node.exists_dir_of_at?_concat hat
      refine ⟨W.root, List.mem_singleton_self _, W.root ++ names, below_of_at? hdir hnames, ?_⟩
      exact mem_hits_iff.mpr ⟨name, content, hat, (List.append_assoc ..).symm, hmatch⟩

theorem apart_of_ne (hne : name ≠ name') : W.forest.Apart (dir ++ [name]) (dir ++ [name']) := by
  intro path hbelow hbelow'
  obtain ⟨names, rfl, -⟩ := exists_of_below hbelow
  obtain ⟨names', heq, -⟩ := exists_of_below hbelow'
  rw [List.append_assoc, List.append_assoc, List.append_cancel_left_eq] at heq
  exact hne (List.cons.inj heq).1

theorem pairwise_readDir (W : WorkspaceFs) (dir : NamePath) :
    ((W.readDir dir).getD []).Pairwise fun e e' => e.1 ≠ e'.1 := by
  cases hread : W.readDir dir with
  | none => exact List.Pairwise.nil
  | some entries =>
    have hnodup := W.fs.distinct dir entries (readDir_eq_some_iff.mp hread)
    exact List.pairwise_map.mp (List.nodup_iff_pairwise_ne.mp hnodup)

theorem append_of_hit (h : W.hit U q dir (name, node) = some rel) :
    W.root ++ rel = dir ++ [name] := by
  rw [WorkspaceFs.hit] at h
  split at h
  · exact stripRoot_eq_some_iff.mp (Option.filter_eq_some_iff.mp h).1
  · cases h

theorem nodup_hits (dir : NamePath) : (W.hits U q dir).Nodup := by
  refine (pairwise_readDir W dir).filterMap _ ?_
  rintro ⟨name, node⟩ ⟨name', node'⟩ hne rel hrel rel' hrel' rfl
  have heq := (append_of_hit hrel).symm.trans (append_of_hit hrel')
  rw [List.append_cancel_left_eq, List.singleton_inj] at heq
  exact hne heq

theorem pairwise_children (dir : NamePath) :
    (W.forest.children dir).Pairwise W.forest.Apart := by
  refine (pairwise_readDir W dir).filterMap _ ?_
  rintro ⟨name, node⟩ ⟨name', node'⟩ hne path hpath path' hpath'
  rw [WorkspaceFs.subdir] at hpath hpath'
  split at hpath
  · split at hpath'
    · obtain rfl := Option.some.inj hpath
      obtain rfl := Option.some.inj hpath'
      exact apart_of_ne hne
    · cases hpath'
  · cases hpath

theorem nodup_traverse_hits : (W.forest.traverse (W.hits U q) [W.root]).Nodup := by
  apply Forest.nodup_traverse
  · exact nodup_hits
  · intro dir dir' rel hrel hrel'
    obtain ⟨name, content, -, heq, -⟩ := mem_hits_iff.mp hrel
    obtain ⟨name', content', -, heq', -⟩ := mem_hits_iff.mp hrel'
    exact (List.append_inj' (heq.symm.trans heq') rfl).1
  · exact pairwise_children
  · exact List.pairwise_singleton _ _

/-! ## Paths as text -/

/-- The name is UTF-8, without a backslash. -/
def PlainName (name : FileName) : Prop :=
  ∃ text, name.bytes = Utf8.encode text ∧ '\\' ∉ text

theorem exists_text_relBytes (h : ∀ name ∈ path, PlainName name) :
    ∃ text, relBytes path = Utf8.encode text ∧ '\\' ∉ text := by
  induction path with
  | nil => exact ⟨[], rfl, List.not_mem_nil⟩
  | cons name path ih =>
    obtain ⟨text, htext, hback⟩ := h name List.mem_cons_self
    obtain ⟨rest, hrest, hback'⟩ := ih fun name' hmem => h name' (List.mem_cons_of_mem _ hmem)
    rw [relBytes] at hrest ⊢
    cases path with
    | nil =>
      refine ⟨text, ?_, hback⟩
      rw [List.map_singleton, List.intercalate_singleton, htext]
    | cons name' path =>
      refine ⟨text ++ '/' :: rest, ?_, ?_⟩
      · rw [List.map_cons, List.intercalate_cons_of_ne_nil (by simp), hrest, htext,
          Utf8.encode_append, List.append_assoc]
        rfl
      · simp [hback, hback']

/-- Shown as text, a path of such names keeps all its bytes. -/
theorem encode_relText (h : ∀ name ∈ path, PlainName name) :
    Utf8.encode (relText path) = relBytes path := by
  obtain ⟨text, htext, hback⟩ := exists_text_relBytes h
  rw [relText, htext, Utf8.fromUtf8Lossy_encode, map_of_not_mem_backslash hback]

theorem splitOn_relBytes (h : path ≠ []) :
    (relBytes path).splitOn slash = path.map FileName.bytes := by
  apply List.splitOn_intercalate slash
  · intro s hs
    obtain ⟨name, -, rfl⟩ := List.mem_map.mp hs
    exact name.legal.2.2.2.1
  · simpa using h

theorem relBytes_eq_nil_iff : relBytes path = [] ↔ path = [] := by
  constructor
  · intro h
    by_contra hne
    have hsplit := splitOn_relBytes hne
    obtain ⟨name, path, rfl⟩ := List.exists_cons_of_ne_nil hne
    rw [h, List.splitOn_nil, List.map_cons] at hsplit
    exact name.legal.1 (List.cons.inj hsplit).1.symm
  · rintro rfl
    rfl

theorem relBytes_injective : Function.Injective relBytes := by
  intro path path' h
  by_cases hne : path = []
  · rw [hne] at h ⊢
    exact (relBytes_eq_nil_iff.mp h.symm).symm
  · have hne' : path' ≠ [] := fun hnil => hne (relBytes_eq_nil_iff.mp (h.trans (hnil ▸ rfl)))
    have hbytes := splitOn_relBytes hne
    rw [h, splitOn_relBytes hne'] at hbytes
    exact (List.map_injective_iff.mpr (fun _ _ => FileName.ext_bytes) hbytes).symm

/-- All names below the root are UTF-8, without a backslash. -/
def WorkspaceFs.PlainNames (W : WorkspaceFs) : Prop :=
  ∀ path name node, W.fs.top.at? (W.root ++ (path ++ [name])) = some node → PlainName name

theorem WorkspaceFs.PlainNames.of_mem_matching (hplain : W.PlainNames)
    (h : rel ∈ W.matching U q) : ∀ name ∈ rel, PlainName name := by
  intro name hmem
  obtain ⟨before, after, rfl⟩ := List.append_of_mem hmem
  obtain ⟨⟨content, hat⟩, -⟩ := h
  rw [List.append_cons, ← List.append_assoc, Node.at?_append,
    Option.bind_eq_some_iff] at hat
  obtain ⟨node, hnode, -⟩ := hat
  exact hplain before name node hnode

theorem nodup_texts (hplain : W.PlainNames) (hq : q ≠ []) :
    ((W.forest.traverse (W.hits U q) [W.root]).map relText).Nodup := by
  refine nodup_traverse_hits.map_on fun rel hrel rel' hrel' h => ?_
  have hmem := (mem_traverse_hits_iff hq).mp hrel
  have hmem' := (mem_traverse_hits_iff hq).mp hrel'
  apply relBytes_injective
  rw [← encode_relText (hplain.of_mem_matching hmem), h,
    encode_relText (hplain.of_mem_matching hmem')]

theorem CaseTables.toLowercase_ne_nil {cs : List Char} (h : cs ≠ []) :
    U.toLowercase cs ≠ [] := by
  obtain ⟨c, cs, rfl⟩ := List.exists_cons_of_ne_nil h
  rw [CaseTables.toLowercase, CaseTables.toLowercaseFrom]
  split
  · exact List.cons_ne_nil _ _
  · exact List.append_ne_nil_of_left_ne_nil (U.lower_ne_nil c) _

/-- The search gives as many of the matching files as the limit allows, sorted and each once. -/
theorem search_spec (U : CaseTables) (query : List Char) (limit : ℕ) (hplain : W.PlainNames)
    (hquery : Rpc.trim query ≠ []) :
    ∃ out, W.search U query limit = .ok out ∧ out.Pairwise (· ≤ ·) ∧ out.Nodup ∧
      (W.matching U (U.toLowercase (Rpc.trim query))).Finite ∧
      out.length = min limit (W.matching U (U.toLowercase (Rpc.trim query))).ncard ∧
      ∀ text ∈ out, ∃ rel ∈ W.matching U (U.toLowercase (Rpc.trim query)),
        text = relText rel := by
  have hq : U.toLowercase (Rpc.trim query) ≠ [] := U.toLowercase_ne_nil hquery
  generalize hgen : U.toLowercase (Rpc.trim query) = q at hq ⊢
  have hsearch : W.search U query limit =
      .ok ((W.searchLoop U q limit [W.root] []).insertionSort (· ≤ ·)) := by
    rw [WorkspaceFs.search, hgen, if_neg (by simpa using hq)]
  have hloop : W.searchLoop U q limit [W.root] [] =
      ((W.forest.traverse (W.hits U q) [W.root]).map relText).take limit := by
    rw [searchLoop_eq (Nat.zero_le _), List.nil_append]
  have hperm := List.perm_insertionSort (· ≤ ·) (W.searchLoop U q limit [W.root] [])
  have hset : W.matching U q = ↑(W.forest.traverse (W.hits U q) [W.root]).toFinset := by
    ext rel
    rw [List.coe_toFinset]
    exact (mem_traverse_hits_iff hq).symm
  refine ⟨_, hsearch, List.pairwise_insertionSort _ _, ?_, ?_, ?_, ?_⟩
  · rw [hperm.nodup_iff, hloop]
    exact (nodup_texts hplain hq).sublist (List.take_sublist _ _)
  · rw [hset]
    exact Finset.finite_toSet _
  · rw [hperm.length_eq, hloop, hset, Set.ncard_coe_finset,
      List.toFinset_card_of_nodup nodup_traverse_hits, List.length_take, List.length_map]
  · intro text htext
    rw [hperm.mem_iff, hloop] at htext
    obtain ⟨rel, hrel, rfl⟩ := List.mem_map.mp (List.mem_of_mem_take htext)
    exact ⟨rel, (mem_traverse_hits_iff hq).mp hrel, rfl⟩

def nameA : FileName := ⟨[97], by decide⟩
def nameTarget : FileName := ⟨[116, 97, 114, 103, 101, 116], by decide⟩

/-- A file `f` in a directory that is left out, in one that is not, and beside the two. -/
def threeFiles : List (FileName × Node) :=
  [(nameTarget, .dir [(nameF, .file .empty)]), (nameA, .dir [(nameF, .file .empty)]),
    (nameF, .file .empty)]

/-- What holds of the directories of the tree and of each of its files holds everywhere in it. -/
theorem of_threeFiles {P : NamePath → Node → Prop} {path : NamePath} {node : Node}
    (htop : P [] (.dir threeFiles))
    (hdirs : ∀ name ∈ [nameTarget, nameA], P [name] (.dir [(nameF, .file .empty)]))
    (hfiles : ∀ path ∈ [[nameTarget, nameF], [nameA, nameF], [nameF]], P path (.file .empty))
    (h : (Node.dir threeFiles).at? path = some node) : P path node := by
  have hdir : ∀ name ∈ [nameTarget, nameA], ∀ path node,
      (Node.dir [(nameF, .file .empty)]).at? path = some node → P (name :: path) node := by
    intro name hname path node h
    refine Node.of_at?_dir (P := fun path node => P (name :: path) node) (hdirs name hname) ?_ h
    simp only [List.mem_singleton, forall_eq]
    intro path node h
    refine Node.of_at?_file (P := fun path node => P (name :: nameF :: path) node)
      (hfiles _ ?_) h
    simp only [List.mem_cons, List.not_mem_nil, or_false] at hname
    rcases hname with rfl | rfl <;> simp
  refine Node.of_at?_dir htop ?_ h
  simp only [threeFiles, List.mem_cons, List.not_mem_nil, or_false, forall_eq_or_imp, forall_eq]
  refine ⟨hdir _ (by simp), hdir _ (by simp), fun path node h => ?_⟩
  exact Node.of_at?_file (P := fun path node => P (nameF :: path) node) (hfiles _ (by simp)) h

def threeFilesFs : WorkspaceFs where
  fs := {
    top := .dir threeFiles
    isDir := ⟨_, rfl⟩
    distinct := by
      intro path entries h
      refine of_threeFiles (P := fun _ node => ∀ entries, node = .dir entries →
        (entries.map Prod.fst).Nodup) ?_ ?_ ?_ h entries rfl
      · rintro entries ⟨⟩
        decide
      · rintro name - entries ⟨⟩
        simp
      · rintro path - entries ⟨⟩
    maxLinks := 0
    len := fun _ => 0 }
  root := []
  real := ⟨_, rfl, rfl⟩

theorem threeFilesFs_plainNames : threeFilesFs.PlainNames := by
  have htext : ∀ name ∈ [nameTarget, nameA, nameF], PlainName name := by
    simp only [List.mem_cons, List.not_mem_nil, or_false, forall_eq_or_imp, forall_eq]
    exact ⟨⟨"target".toList, by decide⟩, ⟨['a'], by decide⟩, ['f'], by decide⟩
  intro path name node h
  refine of_threeFiles (P := fun path _ => ∀ name ∈ path, PlainName name) ?_ ?_ ?_ h name ?_
  · simp
  · intro first hfirst name hname
    rw [List.mem_singleton.mp hname]
    exact htext first (List.mem_append_left [nameF] hfirst)
  · intro path hpath name hname
    apply htext
    simp only [List.mem_cons, List.not_mem_nil, or_false] at hpath ⊢
    rcases hpath with rfl | rfl | rfl <;>
    · simp only [List.mem_cons, List.not_mem_nil, or_false] at hname
      tauto
  · exact List.mem_append_right _ (by simp)

/-- One of the two files that are not left out. -/
theorem search_spec_three_files :
    ∃ out, threeFilesFs.search asciiCase [' ', 'F'] 1 = .ok out ∧
      out.Pairwise (· ≤ ·) ∧ out.Nodup ∧
      (threeFilesFs.matching asciiCase (asciiCase.toLowercase (Rpc.trim [' ', 'F']))).Finite ∧
      out.length = min 1
        (threeFilesFs.matching asciiCase (asciiCase.toLowercase (Rpc.trim [' ', 'F']))).ncard ∧
      ∀ text ∈ out, ∃ rel ∈ threeFilesFs.matching asciiCase
        (asciiCase.toLowercase (Rpc.trim [' ', 'F'])), text = relText rel :=
  search_spec asciiCase [' ', 'F'] 1 threeFilesFs_plainNames (by decide)

end Matching

end ValyriaApp.Bridge
