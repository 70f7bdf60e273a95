import ValyriaApp.Bridge.WorkspaceFs
import ValyriaApp.Lib.Split

/-! # Opening what was listed

The path of a listed entry is the spelling of the directory, backslashes turned
into slashes, with the name behind it. On Unix a backslash is part of a name, so
the path opens the entry exactly when the spelling has none, and when a name
that starts with one does not stand right below the root.
-/

namespace ValyriaApp.Bridge
open FileTree Lib

/-! ## The path of an entry -/

section Spelling

variable {rel text cs : List Char} {c : Char}

/-- The spelling of the directory is kept in the paths of its entries. -/
def Spelled (rel text : List Char) : Prop :=
  '\\' ∉ trimSeparators rel ∧
    ¬ ((trimSeparators rel = [] ∨ trimSeparators rel = ['.']) ∧ text.head? = some '\\')

instance (rel text : List Char) : Decidable (Spelled rel text) :=
  inferInstanceAs (Decidable (_ ∧ ¬ _))

theorem trimSeparators_of_head (hhead : cs.head? = some c) (hc : ¬ (c = '/' ∨ c = '\\')) :
    trimSeparators cs = cs := by
  cases cs with
  | nil => cases hhead
  | cons d cs =>
    obtain rfl := Option.some.inj hhead
    rw [trimSeparators, List.dropWhile_cons_of_neg (by simpa using hc)]

theorem normalizeRel_of_not_mem (h : '\\' ∉ trimSeparators rel) :
    normalizeRel rel = trimSeparators rel :=
  map_of_not_mem_backslash h

theorem not_mem_normalizeRel : '\\' ∉ normalizeRel rel := by
  rw [normalizeRel, List.mem_map]
  rintro ⟨c, -, hc⟩
  split at hc
  · cases hc
  · next hne => exact hne hc

theorem joinRel_root (h : trimSeparators rel = [] ∨ trimSeparators rel = ['.']) :
    joinRel rel text = text := by
  rw [joinRel, normalizeRel]
  rcases h with h | h
  · simp [h]
  · simp [h]

/-- Below the root the name follows the spelling without the slashes at its end. -/
theorem joinRel_below (text : List Char)
    (h : ¬ (trimSeparators rel = [] ∨ trimSeparators rel = ['.'])) :
    ∃ body k c, normalizeRel rel = body ++ List.replicate k '/' ∧ body.head? = some c ∧
      ¬ (c = '/' ∨ c = '\\') ∧ joinRel rel text = body ++ '/' :: text := by
  rw [not_or] at h
  obtain ⟨c, cs, hcs⟩ := List.exists_cons_of_ne_nil h.1
  have hc : ¬ (c = '/' ∨ c = '\\') := trimSeparators_head_ne c (by rw [hcs]; rfl)
  have hnorm : normalizeRel rel = c :: cs.map fun c => if c = '\\' then '/' else c := by
    rw [normalizeRel, hcs, List.map_cons, if_neg fun h => hc (Or.inr h)]
  have hdot : normalizeRel rel ≠ ['.'] := by
    intro hdot
    rw [hnorm] at hdot
    obtain ⟨rfl, htail⟩ := List.cons.inj hdot
    exact h.2 (by rw [hcs, List.map_eq_nil_iff.mp htail])
  have hslashes : (normalizeRel rel).rtakeWhile (· = '/') =
      List.replicate ((normalizeRel rel).rtakeWhile (· = '/')).length '/' := by
    rw [List.eq_replicate_iff]
    refine ⟨rfl, fun d hd => ?_⟩
    exact of_decide_eq_true (List.mem_rtakeWhile_imp (p := fun c => decide (c = '/')) hd)
  have hsplit := List.rdropWhile_append_rtakeWhile (p := fun c => decide (c = '/'))
    (l := normalizeRel rel)
  rw [hslashes] at hsplit
  refine ⟨_, _, c, hsplit.symm, ?_, hc, ?_⟩
  · cases hbody : (normalizeRel rel).rdropWhile (· = '/') with
    | nil =>
      have hall := List.rdropWhile_eq_nil_iff.mp hbody c (by rw [hnorm]; exact List.mem_cons_self)
      exact absurd (Or.inl (of_decide_eq_true hall)) hc
    | cons d body =>
      rw [hbody, hnorm] at hsplit
      rw [(List.cons.inj hsplit).1]
      rfl
  · rw [joinRel, if_neg]
    rintro (hnil | hdot')
    · rw [hnorm] at hnil
      cases hnil
    · exact hdot hdot'

theorem segmentsOf_name (hslash : slash ∉ Utf8.encode cs) (htrim : trimSeparators cs = cs) :
    segmentsOf cs = [Utf8.encode cs] := by
  rw [segmentsOf, htrim, List.splitOn_eq_singleton hslash]

theorem segmentsOf_joinRel {body : List Char} (hhead : body.head? = some c)
    (hc : ¬ (c = '/' ∨ c = '\\')) (hslash : slash ∉ Utf8.encode text) :
    segmentsOf (body ++ '/' :: text) =
      (Utf8.encode body).splitOn slash ++ [Utf8.encode text] := by
  have hhead' : (body ++ '/' :: text).head? = some c := by
    rw [List.head?_append, hhead]
    rfl
  have hslash' : String.utf8EncodeChar '/' = [slash] := by decide
  rw [segmentsOf, trimSeparators_of_head hhead' hc, Utf8.encode_append, Utf8.encode_cons, hslash',
    List.singleton_append, List.splitOn_append_cons_self, List.splitOn_eq_singleton hslash]

theorem head_ne_slash (hslash : slash ∉ Utf8.encode text) : text.head? ≠ some '/' := by
  intro h
  exact hslash ((Utf8.mem_encode_iff (c := '/') (by decide)).mpr (List.mem_of_head? h))

/-- Where the spelling is kept, the entry's path has the segments of the directory, but for some
that stay, and the name. -/
theorem Spelled.segments (h : Spelled rel text) (hne : text ≠ [])
    (hslash : slash ∉ Utf8.encode text) :
    ∃ segs stay, segmentsOf rel = segs ++ stay ∧ (∀ s ∈ stay, s = [] ∨ s = [dot]) ∧
      segmentsOf (joinRel rel text) = segs ++ [Utf8.encode text] := by
  by_cases hroot : trimSeparators rel = [] ∨ trimSeparators rel = ['.']
  · obtain ⟨c, text, rfl⟩ := List.exists_cons_of_ne_nil hne
    have hc : ¬ (c = '/' ∨ c = '\\') := by
      rintro (rfl | rfl)
      · exact head_ne_slash hslash rfl
      · exact h.2 ⟨hroot, rfl⟩
    refine ⟨[], segmentsOf rel, rfl, ?_, ?_⟩
    · rw [segmentsOf]
      rcases hroot with hroot | hroot
      · rw [hroot]
        decide
      · rw [hroot]
        decide
    · rw [joinRel_root hroot, segmentsOf_name hslash (trimSeparators_of_head rfl hc)]
      rfl
  · obtain ⟨body, k, c, hnorm, hhead, hc, hjoin⟩ := joinRel_below text hroot
    have hslashes : Utf8.encode (List.replicate k '/') = List.replicate k slash := by
      have hone : String.utf8EncodeChar '/' = [slash] := by decide
      rw [Utf8.encode, List.flatMap_replicate, hone, List.flatten_replicate_singleton]
    refine ⟨(Utf8.encode body).splitOn slash, List.replicate k [], ?_, ?_, ?_⟩
    · rw [segmentsOf, ← normalizeRel_of_not_mem h.1, hnorm, Utf8.encode_append, hslashes,
        splitOn_append_replicate]
    · intro s hs
      exact Or.inl (List.eq_of_mem_replicate hs)
    · rw [hjoin, segmentsOf_joinRel hhead hc hslash]

/-- Only where the spelling is kept does the entry's path have the names of the directory and
the entry. -/
theorem spelled_of_names (hlegal : Legal (Utf8.encode text))
    (h : names (segmentsOf (joinRel rel text)) = names (segmentsOf rel) ++ [Utf8.encode text]) :
    Spelled rel text := by
  obtain ⟨hnil, hdot, -, hslash, -⟩ := hlegal
  constructor
  · intro hmem
    have hroot : ¬ (trimSeparators rel = [] ∨ trimSeparators rel = ['.']) := by
      rintro (hroot | hroot)
      · rw [hroot] at hmem
        cases hmem
      · rw [hroot] at hmem
        exact absurd hmem (by decide)
    obtain ⟨body, k, c, hnorm, hhead, hc, hjoin⟩ := joinRel_below text hroot
    have hbody : '\\' ∉ body := by
      intro h
      have hnone : '\\' ∉ normalizeRel rel := not_mem_normalizeRel
      rw [hnorm] at hnone
      exact hnone (List.mem_append_left _ h)
    rw [hjoin, segmentsOf_joinRel hhead hc hslash, names_append, names_cons hnil hdot] at h
    have hnames := List.append_cancel_right h
    -- a segment with a backslash is a name of the directory, but none of the spelling shown
    have hbackslash : UInt8.ofNat '\\'.toNat ≠ slash := by decide
    obtain ⟨s, hs, hin⟩ := (exists_mem_splitOn_iff hbackslash).mpr
      ((Utf8.mem_encode_iff (c := '\\') (by decide)).mpr hmem)
    have hname : s ∈ names (segmentsOf rel) := by
      refine mem_names.mpr ⟨hs, List.ne_nil_of_mem hin, ?_⟩
      rintro rfl
      exact absurd hin (by decide)
    rw [← hnames] at hname
    have hshown := (exists_mem_splitOn_iff hbackslash).mp ⟨s, (mem_names.mp hname).1, hin⟩
    exact hbody ((Utf8.mem_encode_iff (c := '\\') (by decide)).mp hshown)
  · rintro ⟨hroot, hhead⟩
    have hslash' : slash ∉ Utf8.encode (trimSeparators text) := by
      intro h
      refine hslash ((Utf8.mem_encode_iff (c := '/') (by decide)).mpr ?_)
      exact List.dropWhile_subset _ ((Utf8.mem_encode_iff (c := '/') (by decide)).mp h)
    have htext : Utf8.encode text ∈ names (segmentsOf (joinRel rel text)) := by
      rw [h]
      exact List.mem_append_right _ List.mem_cons_self
    rw [joinRel_root hroot, segmentsOf, List.splitOn_eq_singleton hslash', mem_names,
      List.mem_singleton] at htext
    have htrim := Utf8.encode_injective htext.1
    rw [htrim] at hhead
    exact trimSeparators_head_ne _ hhead (Or.inr rfl)

end Spelling

/-! ## Opening an entry -/

section Opening

variable {W : WorkspaceFs} {U : CaseTables} {rel text : List Char} {name : FileName}
  {dir : NamePath} {entries : List (FileName × Node)} {node : Node}

/-- The path leads to a directory with an entry of that name, which is not a link. -/
def WorkspaceFs.Lists (W : WorkspaceFs) (rel : List Char) (name : FileName) : Prop :=
  ∃ dir entries node, W.resolve rel = .ok dir ∧ W.readDir dir = some entries ∧
    (name, node) ∈ entries ∧ node.isLink = false

/-- When the entry is listed, the path listed for it resolves to it. -/
def WorkspaceFs.OpensListed (W : WorkspaceFs) (U : CaseTables) (rel : List Char)
    (name : FileName) : Prop :=
  ∀ dir entries node, W.resolve rel = .ok dir → W.readDir dir = some entries →
    (name, node) ∈ entries → node.isLink = false → ∃ listed, W.listDir U rel = .ok listed ∧
      ∃ e ∈ listed, e = W.dirEntry rel dir (name, node) ∧
        W.resolve e.path = .ok (dir ++ [name])

/-- Whatever resolves lies below the root. -/
def WorkspaceFs.StaysBelow (W : WorkspaceFs) : Prop :=
  ∀ rel abs, W.resolve rel = .ok abs → W.root <+: abs

def WorkspaceFs.Linkless (W : WorkspaceFs) : Prop :=
  ∀ path target, W.fs.top.at? path ≠ some (.symlink target)

theorem WorkspaceFs.staysBelow (W : WorkspaceFs) : W.StaysBelow :=
  fun _ _ h => (resolve_eq_ok_iff.mp h).2.2.2

theorem path_dirEntry (hname : name.bytes = Utf8.encode text) :
    (W.dirEntry rel dir (name, node)).path = joinRel rel text := by
  rw [WorkspaceFs.dirEntry, hname, Utf8.fromUtf8Lossy_encode]

theorem exists_listed (hresolve : W.resolve rel = .ok dir)
    (hread : W.readDir dir = some entries) (hmem : (name, node) ∈ entries) :
    ∃ listed, W.listDir U rel = .ok listed ∧ W.dirEntry rel dir (name, node) ∈ listed := by
  refine ⟨(entries.map (W.dirEntry rel dir)).mergeSort (listedBefore U), ?_, ?_⟩
  · rw [WorkspaceFs.listDir, hresolve]
    simp only [bind, Except.bind, hread]
  · rw [List.mem_mergeSort]
    exact List.mem_map_of_mem hmem

theorem opensListed_iff (hname : name.bytes = Utf8.encode text) :
    W.OpensListed U rel name ↔ ∀ dir entries node, W.resolve rel = .ok dir →
      W.readDir dir = some entries → (name, node) ∈ entries → node.isLink = false →
        W.resolve (joinRel rel text) = .ok (dir ++ [name]) := by
  constructor
  · intro h dir entries node hresolve hread hmem hlink
    obtain ⟨listed, -, e, -, rfl, hopen⟩ := h dir entries node hresolve hread hmem hlink
    rwa [path_dirEntry hname] at hopen
  · intro h dir entries node hresolve hread hmem hlink
    obtain ⟨listed, hlisted, he⟩ := exists_listed (U := U) hresolve hread hmem
    refine ⟨listed, hlisted, _, he, rfl, ?_⟩
    rw [path_dirEntry hname]
    exact h dir entries node hresolve hread hmem hlink

/-- A spelling that is kept opens the entry in every tree. -/
theorem Spelled.opens (h : Spelled rel text) (hname : name.bytes = Utf8.encode text) :
    W.OpensListed U rel name := by
  rw [opensListed_iff hname]
  intro dir entries node hresolve hread hmem hlink
  obtain ⟨hnil, hdot, hup, hslash, hzero⟩ := name.legal
  rw [hname] at hnil hdot hup hslash hzero
  have htext : text ≠ [] := by
    rintro rfl
    exact hnil rfl
  obtain ⟨segs, stay, hrel, hstay, hshown⟩ := h.segments htext hslash
  obtain ⟨hup', hzero', hwalk, hroot⟩ := resolve_eq_ok_iff.mp hresolve
  rw [hrel] at hup' hwalk
  obtain ⟨mid, links, hmid, hrest⟩ := hwalk.split
  obtain rfl := hrest.of_here hstay
  have hdir := readDir_eq_some_iff.mp hread
  have hentry : lookup (Utf8.encode text) entries = some (name, node) := by
    rw [← hname]
    exact lookup_of_mem (W.fs.distinct dir entries hdir) hmem
  refine resolve_eq_ok_iff.mpr ⟨?_, ?_, ?_, hroot.trans (List.prefix_append _ _)⟩
  · rw [hshown, List.mem_append, List.mem_singleton]
    rintro (h | h)
    · exact hup' (List.mem_append_left _ h)
    · exact hup h.symm
  · intro h0
    have hsep : (0 : UInt8) ≠ slash := by decide
    obtain ⟨s, hs, h0⟩ := (exists_mem_splitOn_iff hsep).mpr h0
    rw [← segmentsOf, hshown, List.mem_append, List.mem_singleton] at hs
    rcases hs with hs | rfl
    · refine hzero' ((exists_mem_splitOn_iff hsep).mp ⟨s, ?_, h0⟩)
      rw [← segmentsOf, hrel]
      exact List.mem_append_left _ hs
    · exact hzero h0
  · rw [hshown]
    exact hmid.append fun _ => .name hdir hentry hlink .done

/-- Without links the names of a path are those of what it resolves to. -/
theorem bytes_of_resolve (hlinks : W.Linkless) (h : W.resolve rel = .ok dir) :
    dir.map FileName.bytes = W.root.map FileName.bytes ++ names (segmentsOf rel) := by
  obtain ⟨hup, -, hwalk, -⟩ := resolve_eq_ok_iff.mp h
  exact hwalk.bytes_eq hlinks hup

theorem opensListed_iff_spelled (hlinks : W.Linkless) (hlists : W.Lists rel name)
    (hname : name.bytes = Utf8.encode text) : W.OpensListed U rel name ↔ Spelled rel text := by
  constructor
  · intro h
    obtain ⟨dir, entries, node, hresolve, hread, hmem, hlink⟩ := hlists
    have hopen := (opensListed_iff hname).mp h dir entries node hresolve hread hmem hlink
    have hbytes := bytes_of_resolve hlinks hopen
    rw [List.map_append, bytes_of_resolve hlinks hresolve, List.append_assoc,
      List.map_singleton, hname] at hbytes
    exact spelled_of_names (hname ▸ name.legal) (List.append_cancel_left hbytes).symm
  · intro h
    exact h.opens hname

/-! ## A tree for every spelling -/

/-- A workspace with one file, below the directories of `path`. -/
def chainWorkspace (path : NamePath) (name : FileName) : WorkspaceFs where
  fs := {
    top := chain path (.dir [(name, .file ByteArray.empty)])
    isDir := by
      cases path with
      | nil => exact ⟨_, rfl⟩
      | cons first path => exact ⟨_, rfl⟩
    distinct := by
      intro p entries h
      have hone : ∀ es, Node.dir entries = .dir es → (es.map Prod.fst).Nodup := by
        refine of_chain_at? (P := fun n => ∀ es, n = .dir es → (es.map Prod.fst).Nodup) ?_ ?_ h
        · rintro q n hn es rfl
          rcases at?_single hn with ⟨-, hn⟩ | ⟨-, hn⟩
          · cases hn
            simp
          · cases hn
        · rintro first n es ⟨⟩
          simp
      exact hone entries rfl
    maxLinks := 0
    len := fun _ => 0 }
  root := []
  real := by
    cases path with
    | nil => exact ⟨_, rfl, rfl⟩
    | cons first path => exact ⟨_, rfl, rfl⟩

theorem chainWorkspace_linkless (path : NamePath) (name : FileName) :
    (chainWorkspace path name).Linkless := by
  intro p target h
  have hlink : Node.isLink (.symlink target) = false := by
    refine of_chain_at? (P := fun n => n.isLink = false) ?_ (fun _ _ => rfl) h
    intro q n hn
    rcases at?_single hn with ⟨-, rfl⟩ | ⟨-, rfl⟩
    · rfl
    · rfl
  cases hlink

theorem chainWorkspace_readDir (path : NamePath) (name : FileName) :
    (chainWorkspace path name).readDir path = some [(name, .file ByteArray.empty)] := by
  rw [WorkspaceFs.readDir, chainWorkspace, chain_at?]

/-- A spelling that some tree accepts is accepted by the tree of its names. -/
theorem exists_chainWorkspace (hrel : W.resolve rel = .ok dir) (name : FileName) :
    ∃ path, (chainWorkspace path name).Lists rel name := by
  obtain ⟨hup, hzero, -⟩ := resolve_eq_ok_iff.mp hrel
  have hlegal : ∀ s ∈ names (segmentsOf rel), Legal s := by
    intro s hs
    obtain ⟨hs, hnil, hdot⟩ := mem_names.mp hs
    refine ⟨hnil, hdot, ?_, not_mem_of_mem_splitOn hs, ?_⟩
    · rintro rfl
      exact hup hs
    · intro h0
      exact hzero ((exists_mem_splitOn_iff (by decide)).mp ⟨s, hs, h0⟩)
  refine ⟨(names (segmentsOf rel)).pmap (fun s h => ⟨s, h⟩) hlegal, ?_⟩
  generalize hpath : (names (segmentsOf rel)).pmap (fun s h => (⟨s, h⟩ : FileName)) hlegal = path
  have hbytes : names (segmentsOf rel) = path.map FileName.bytes := by
    rw [← hpath, List.map_pmap, List.pmap_eq_map, List.map_id']
  refine ⟨path, _, _, resolve_eq_ok_iff.mpr ⟨hup, hzero, ?_, List.nil_prefix⟩,
    chainWorkspace_readDir path name, List.mem_singleton_self _, rfl⟩
  have hwalk : Walks (chain path (.dir [(name, .file ByteArray.empty)])) ([] ++ path) 0 []
      (segmentsOf rel) := walks_of_at? chain_at? hbytes
  exact hwalk

/-- The path listed for an entry opens it in every tree exactly when the spelling is kept; and
in a tree without links, for any spelling. All that resolves lies below the root. -/
theorem listed_path_opens_iff (U : CaseTables) (rel text : List Char) (name : FileName)
    (hname : name.bytes = Utf8.encode text)
    (hrel : ∃ (W : WorkspaceFs) (dir : NamePath), W.resolve rel = .ok dir) :
    ((∀ W : WorkspaceFs, W.StaysBelow ∧ W.OpensListed U rel name) ↔ Spelled rel text) ∧
      ∀ W : WorkspaceFs, W.Linkless → W.Lists rel name →
        (W.StaysBelow ∧ W.OpensListed U rel name ↔ Spelled rel text) := by
  have hlinkless : ∀ W : WorkspaceFs, W.Linkless → W.Lists rel name →
      (W.StaysBelow ∧ W.OpensListed U rel name ↔ Spelled rel text) := by
    intro W hlinks hlists
    rw [← opensListed_iff_spelled (U := U) hlinks hlists hname]
    exact and_iff_right W.staysBelow
  refine ⟨⟨fun h => ?_, fun h W => ⟨W.staysBelow, h.opens hname⟩⟩, hlinkless⟩
  obtain ⟨W, dir, hresolve⟩ := hrel
  obtain ⟨path, hlists⟩ := exists_chainWorkspace hresolve name
  exact (hlinkless _ (chainWorkspace_linkless path name) hlists).mp (h _)

theorem listed_path_opens_src :
    ((∀ W : WorkspaceFs, W.StaysBelow ∧ W.OpensListed asciiCase ['s', 'r', 'c'] nameF) ↔
        Spelled ['s', 'r', 'c'] ['f']) ∧
      ∀ W : WorkspaceFs, W.Linkless → W.Lists ['s', 'r', 'c'] nameF →
        (W.StaysBelow ∧ W.OpensListed asciiCase ['s', 'r', 'c'] nameF ↔
          Spelled ['s', 'r', 'c'] ['f']) :=
  listed_path_opens_iff asciiCase ['s', 'r', 'c'] ['f'] nameF rfl
    ⟨chainWorkspace [⟨[115, 114, 99], by decide⟩] nameF, _, rfl⟩

/-- A file in a directory named with a backslash, and a file right below the root whose name starts
with one. -/
theorem listed_path_not_opened :
    (∃ W : WorkspaceFs, W.Lists ['a', '\\', 'b'] nameF ∧
        ¬ W.OpensListed asciiCase ['a', '\\', 'b'] nameF) ∧
      ∃ W : WorkspaceFs, W.Lists [] ⟨[92, 120], by decide⟩ ∧
        ¬ W.OpensListed asciiCase [] ⟨[92, 120], by decide⟩ := by
  constructor
  · have hlists : (chainWorkspace [⟨[97, 92, 98], by decide⟩] nameF).Lists ['a', '\\', 'b']
        nameF := ⟨_, _, _, rfl, rfl, List.mem_singleton_self _, rfl⟩
    have hname : nameF.bytes = Utf8.encode ['f'] := rfl
    refine ⟨_, hlists, fun h => ?_⟩
    have hspelled := (opensListed_iff_spelled (chainWorkspace_linkless _ _) hlists hname).mp h
    exact absurd hspelled (by decide)
  · have hlists : (chainWorkspace [] ⟨[92, 120], by decide⟩).Lists [] ⟨[92, 120], by decide⟩ :=
      ⟨_, _, _, rfl, rfl, List.mem_singleton_self _, rfl⟩
    have hname : FileName.bytes ⟨[92, 120], by decide⟩ = Utf8.encode ['\\', 'x'] := rfl
    refine ⟨_, hlists, fun h => ?_⟩
    have hspelled := (opensListed_iff_spelled (chainWorkspace_linkless _ _) hlists hname).mp h
    exact absurd hspelled (by decide)

end Opening

end ValyriaApp.Bridge
