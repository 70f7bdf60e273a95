import Mathlib.Data.List.TakeWhile
import Mathlib.Tactic.TFAE
import ValyriaApp.Lib.Split
import ValyriaApp.Protocol.Json

/-! # The document viewer

Markdown under `.valyria/` is rendered line by line: fenced code, headings of
four levels, list items and paragraphs. The code of a fence runs to the next
fence or to the end, items of adjacent lines share a list, and everything else
that is not blank is a paragraph. A list of elements is rendered from some text
exactly when it is rendered from its own plain spelling.
-/

namespace ValyriaApp.CustomDoc
open ValyriaApp.Num (isSpace trim)
open Lib

/-! ## The renderer -/

/-- The elements appended to the document, in order. -/
inductive Block where
  | code (text : List Char)
  | heading (level : ℕ) (text : List Char)
  | list (items : List (List Char))
  | paragraph (text : List Char)
  deriving DecidableEq

/-- What the dot of a pattern does not match. -/
def isTerminator (c : Char) : Bool := c.toNat ∈ [0xA, 0xD, 0x2028, 0x2029]

/-- What `\s+(.*)$` captures: the white space takes all it can, and giving some of it back leaves
the dot no less to match. -/
def captured : List Char → Option (List Char)
  | [] => none
  | c :: cs =>
    let text := cs.dropWhile isSpace
    if isSpace c ∧ ¬ text.any isTerminator then some text else none

/-- `/^(#{1,4})\s+(.*)$/` -/
def hMatch (line : List Char) : Option (ℕ × List Char) :=
  let level := (line.takeWhile (· = '#')).length
  if 1 ≤ level ∧ level ≤ 4 then (captured (line.drop level)).map (level, ·) else none

/-- `/^\s*[-*]\s+(.*)$/` -/
def liMatch (line : List Char) : Option (List Char) :=
  match line.dropWhile isSpace with
  | [] => none
  | c :: cs => if c = '-' ∨ c = '*' then captured cs else none

def fence : List Char := ['`', '`', '`']

def isFence (line : List Char) : Bool := fence.isPrefixOf line

def join (lines : List (List Char)) : List Char := ['\n'].intercalate lines

/-- `flushList`, over the items of the list that is open; a list has an item from the start. -/
def flushList (items : List (List Char)) : List Block :=
  if items.isEmpty then [] else [.list items]

/-- The loop over the lines. -/
def renderFrom (items : List (List Char)) : List (List Char) → List Block
  | [] => flushList items
  | line :: lines =>
    if isFence line then
      flushList items ++ .code (join (lines.takeWhile (!isFence ·))) ::
        renderFrom [] ((lines.dropWhile (!isFence ·)).drop 1)
    else match hMatch line with
      | some (level, text) => flushList items ++ .heading level text :: renderFrom [] lines
      | none => match liMatch line with
        | some text => renderFrom (items ++ [text]) lines
        | none =>
          flushList items ++ (if (trim line).isEmpty then [] else [.paragraph line]) ++
            renderFrom [] lines
termination_by lines => lines.length
decreasing_by
  · have hle : (lines.dropWhile (!isFence ·)).length ≤ lines.length :=
      (List.dropWhile_suffix _).length_le
    simp only [List.length_drop, List.length_cons]
    omega
  all_goals simp

def renderMarkdown (src : List Char) : List Block := renderFrom [] (src.splitOn '\n')

/-! ## The plain spelling -/

namespace Block

/-- A blank line behind every element keeps the lists apart. -/
def lines : Block → List (List Char)
  | code text => fence :: text.splitOn '\n' ++ [fence, []]
  | heading level text => [List.replicate level '#' ++ ' ' :: text, []]
  | list items => items.map ('-' :: ' ' :: ·) ++ [[]]
  | paragraph text => [text, []]

end Block

def write (blocks : List Block) : List Char := join (blocks.flatMap (·.lines))

/-- The rest of a line behind the white space. -/
structure Captured (text : List Char) : Prop where
  head : ∀ c ∈ text.head?, isSpace c = false
  line : ∀ c ∈ text, isTerminator c = false

/-- A line that is nothing but the text of a paragraph. -/
structure Prose (line : List Char) : Prop where
  single : '\n' ∉ line
  code : isFence line = false
  heading : hMatch line = none
  item : liMatch line = none
  text : trim line ≠ []

/-- What an element can hold. -/
def Block.Plain : Block → Prop
  | .code text => ∀ line ∈ text.splitOn '\n', isFence line = false
  | .heading level text => (1 ≤ level ∧ level ≤ 4) ∧ Captured text
  | .list items => items ≠ [] ∧ ∀ text ∈ items, Captured text
  | .paragraph text => Prose text

def Plain (blocks : List Block) : Prop := ∀ b ∈ blocks, b.Plain

/-! ## The patterns -/

section Patterns

variable {cs line text : List Char}

theorem captured_some_iff :
    captured cs = some text ↔ Captured text ∧ ∃ space ≠ [], (∀ c ∈ space, isSpace c = true) ∧
      cs = space ++ text := by
  constructor
  · intro h
    match cs, h with
    | c :: cs, h =>
      rw [captured] at h
      split at h
      · next hc =>
        obtain rfl := Option.some.inj h
        refine ⟨⟨?_, ?_⟩, c :: cs.takeWhile isSpace, by simp, ?_, ?_⟩
        · intro x hx
          have hnot := List.head?_dropWhile_not isSpace cs
          rw [Option.mem_def.mp hx] at hnot
          simpa using hnot
        · simpa using hc.2
        · rintro x (_ | ⟨_, hx⟩)
          · exact hc.1
          · exact List.mem_takeWhile_imp hx
        · simp
      · contradiction
  · rintro ⟨htext, space, hne, hspace, rfl⟩
    obtain ⟨c, space, rfl⟩ := List.exists_cons_of_ne_nil hne
    obtain ⟨hc, hspace⟩ := List.forall_mem_cons.mp hspace
    have hdrop : (space ++ text).dropWhile isSpace = text := by
      rw [List.dropWhile_append_of_pos hspace, dropWhile_eq_self htext.head]
    rw [List.cons_append, captured, hdrop, if_pos ⟨hc, by simpa using htext.line⟩]

theorem captured_space (h : Captured text) : captured (' ' :: text) = some text :=
  captured_some_iff.mpr ⟨h, [' '], by simp, by simp; rfl, rfl⟩

theorem takeWhile_hashes {level : ℕ} {x : Char} (hx : x ≠ '#') (cs : List Char) :
    (List.replicate level '#' ++ x :: cs).takeWhile (· = '#') = List.replicate level '#' := by
  rw [List.takeWhile_append_of_pos (by simp), List.takeWhile_cons_of_neg (by simpa using hx),
    List.append_nil]

/-- The heading pattern, for a text that nothing in front of it may be white space. -/
theorem hMatch_some_iff {level : ℕ} :
    hMatch line = some (level, text) ↔ (1 ≤ level ∧ level ≤ 4) ∧ Captured text ∧
      ∃ space ≠ [], (∀ c ∈ space, isSpace c = true) ∧
        line = List.replicate level '#' ++ (space ++ text) := by
  constructor
  · intro h
    rw [hMatch] at h
    split at h
    · next hlevel =>
      obtain ⟨t, ht, heq⟩ := Option.map_eq_some_iff.mp h
      obtain ⟨rfl, rfl⟩ := Prod.mk.inj heq
      obtain ⟨htext, space, hne, hspace, hline⟩ := captured_some_iff.mp ht
      refine ⟨hlevel, htext, space, hne, hspace, ?_⟩
      have hhashes : line.takeWhile (· = '#') =
          List.replicate (line.takeWhile (· = '#')).length '#' := by
        apply List.eq_replicate_of_mem
        intro c hc
        simpa using List.mem_takeWhile_imp hc
      have htake : line.take (line.takeWhile (· = '#')).length = line.takeWhile (· = '#') :=
        List.prefix_iff_eq_take.mp ( List.takeWhile_prefix _) |>.symm
      calc line = line.take _ ++ line.drop (line.takeWhile (· = '#')).length :=
            (List.take_append_drop _ line).symm
        _ = _ := by rw [htake, hline, ← hhashes]
    · contradiction
  · rintro ⟨hlevel, htext, space, hne, hspace, rfl⟩
    obtain ⟨c, space, rfl⟩ := List.exists_cons_of_ne_nil hne
    have hc : c ≠ '#' := by
      rintro rfl
      exact absurd (hspace '#' List.mem_cons_self) (by decide)
    rw [hMatch, List.cons_append, takeWhile_hashes hc, List.length_replicate, if_pos hlevel,
      List.drop_left' List.length_replicate, ← List.cons_append,
      captured_some_iff.mpr ⟨htext, c :: space, hne, hspace, rfl⟩, Option.map_some]

theorem captured_of_liMatch (h : liMatch line = some text) : Captured text := by
  rw [liMatch] at h
  split at h
  · contradiction
  · split at h
    · exact (captured_some_iff.mp h).1
    · contradiction

theorem liMatch_item (h : Captured text) : liMatch ('-' :: ' ' :: text) = some text := by
  rw [liMatch, List.dropWhile_cons_of_neg (by decide)]
  exact captured_space h

theorem hMatch_item (text : List Char) : hMatch ('-' :: text) = none := by
  simp [hMatch]

end Patterns

/-! ## The lines of one element -/

section Lines

variable {lines rest : List (List Char)} {items : List (List Char)} {text : List Char}

theorem renderFrom_blank (items rest : List (List Char)) :
    renderFrom items ([] :: rest) = flushList items ++ renderFrom [] rest := by
  rw [renderFrom]
  simp [isFence, fence, hMatch, liMatch, trim]

theorem renderFrom_code (h : ∀ line ∈ lines, isFence line = false) (rest : List (List Char)) :
    renderFrom [] (fence :: lines ++ fence :: rest) = .code (join lines) :: renderFrom [] rest := by
  have hfence : isFence fence = true := rfl
  have htake : (lines ++ fence :: rest).takeWhile (!isFence ·) = lines := by
    rw [List.takeWhile_append_of_pos (by simpa using h),
      List.takeWhile_cons_of_neg (by simp [hfence]), List.append_nil]
  have hdrop : (lines ++ fence :: rest).dropWhile (!isFence ·) = fence :: rest := by
    rw [List.dropWhile_append_of_pos (by simpa using h),
      List.dropWhile_cons_of_neg (by simp [hfence])]
  rw [List.cons_append, renderFrom, if_pos hfence, htake, hdrop]
  rfl

theorem renderFrom_heading {level : ℕ} (hlevel : 1 ≤ level ∧ level ≤ 4) (h : Captured text)
    (rest : List (List Char)) :
    renderFrom [] ((List.replicate level '#' ++ ' ' :: text) :: rest) =
      .heading level text :: renderFrom [] rest := by
  have hmatch : hMatch (List.replicate level '#' ++ ' ' :: text) = some (level, text) :=
    hMatch_some_iff.mpr ⟨hlevel, h, [' '], by simp, by simp; rfl, rfl⟩
  have hcode : isFence (List.replicate level '#' ++ ' ' :: text) = false := by
    obtain ⟨n, rfl⟩ := Nat.exists_eq_add_of_le' hlevel.1
    rfl
  rw [renderFrom, hcode, hmatch]
  rfl

theorem renderFrom_items {new : List (List Char)} (h : ∀ text ∈ new, Captured text)
    (items rest : List (List Char)) :
    renderFrom items (new.map ('-' :: ' ' :: ·) ++ rest) = renderFrom (items ++ new) rest := by
  induction new generalizing items with
  | nil => simp
  | cons text new ih =>
    obtain ⟨htext, hnew⟩ := List.forall_mem_cons.mp h
    have hcode : isFence ('-' :: ' ' :: text) = false := rfl
    rw [List.map_cons, List.cons_append, renderFrom, hcode, hMatch_item, liMatch_item htext]
    simpa using ih hnew (items ++ [text])

theorem renderFrom_paragraph (h : Prose text) (rest : List (List Char)) :
    renderFrom [] (text :: rest) = .paragraph text :: renderFrom [] rest := by
  rw [renderFrom, h.code, h.heading, h.item]
  simp [flushList, h.text]

/-- The plain spelling of an element is rendered as that element. -/
theorem renderFrom_lines {b : Block} (h : b.Plain) (rest : List (List Char)) :
    renderFrom [] (b.lines ++ rest) = b :: renderFrom [] rest := by
  have hblank : renderFrom [] ([] :: rest) = renderFrom [] rest := renderFrom_blank [] rest
  cases b with
  | code text =>
    have hjoin : join (text.splitOn '\n') = text := List.intercalate_splitOn '\n'
    have hlines : (Block.code text).lines ++ rest =
        fence :: text.splitOn '\n' ++ fence :: [] :: rest := by simp [Block.lines]
    rw [hlines, renderFrom_code h, hjoin, hblank]
  | heading level text =>
    rw [Block.lines, List.cons_append, renderFrom_heading h.1 h.2]
    exact congrArg _ hblank
  | list items =>
    rw [Block.lines, List.append_assoc, renderFrom_items h.2, List.nil_append]
    simp [renderFrom_blank, flushList, h.1]
  | paragraph text =>
    rw [Block.lines, List.cons_append, renderFrom_paragraph h]
    exact congrArg _ hblank

theorem renderFrom_flatMap {blocks : List Block} (h : Plain blocks) :
    renderFrom [] (blocks.flatMap (·.lines)) = blocks := by
  induction blocks with
  | nil =>
    rw [List.flatMap_nil, renderFrom]
    rfl
  | cons b blocks ih =>
    obtain ⟨hb, hblocks⟩ := List.forall_mem_cons.mp h
    rw [List.flatMap_cons, renderFrom_lines hb, ih hblocks]

end Lines

/-! ## What is rendered -/

section Range

variable {lines : List (List Char)} {items : List (List Char)} {blocks : List Block}

theorem plain_append {others : List Block} :
    Plain (blocks ++ others) ↔ Plain blocks ∧ Plain others := List.forall_mem_append

theorem plain_cons {b : Block} : Plain (b :: blocks) ↔ b.Plain ∧ Plain blocks :=
  List.forall_mem_cons

theorem plain_flushList (h : ∀ text ∈ items, Captured text) : Plain (flushList items) := by
  intro b hb
  rw [flushList] at hb
  split at hb
  · contradiction
  · next hne =>
    obtain rfl := List.mem_singleton.mp hb
    exact ⟨by simpa using hne, h⟩

theorem plain_code (hlines : ∀ line ∈ lines, '\n' ∉ line) :
    (Block.code (join (lines.takeWhile (!isFence ·)))).Plain := by
  have hcode : ∀ line ∈ lines.takeWhile (!isFence ·), isFence line = false := by
    intro line hline
    simpa using List.mem_takeWhile_imp hline
  have hsingle : ∀ line ∈ lines.takeWhile (!isFence ·), '\n' ∉ line :=
    fun line hline => hlines line (( List.takeWhile_prefix _).subset hline)
  generalize lines.takeWhile (!isFence ·) = code at hcode hsingle
  intro line hline
  by_cases hnil : code = []
  · subst hnil
    obtain rfl := List.mem_singleton.mp (hline : line ∈ [[]])
    rfl
  · rw [join, List.splitOn_intercalate '\n' hsingle hnil] at hline
    exact hcode line hline

/-- Whatever the lines are, the elements can be spelled. -/
theorem plain_renderFrom (hitems : ∀ text ∈ items, Captured text)
    (hlines : ∀ line ∈ lines, '\n' ∉ line) : Plain (renderFrom items lines) := by
  fun_induction renderFrom items lines with
  | case1 items => exact plain_flushList hitems
  | case2 items line lines hfence ih =>
    obtain ⟨-, hrest⟩ := List.forall_mem_cons.mp hlines
    refine plain_append.mpr ⟨plain_flushList hitems, plain_cons.mpr ⟨plain_code hrest, ?_⟩⟩
    apply ih (by simp)
    intro line hline
    exact hrest line ((List.dropWhile_suffix _).subset (List.mem_of_mem_drop hline))
  | case3 items line lines hfence level text hheading ih =>
    obtain ⟨hlevel, htext, -⟩ := hMatch_some_iff.mp hheading
    refine plain_append.mpr ⟨plain_flushList hitems, plain_cons.mpr ⟨⟨hlevel, htext⟩, ?_⟩⟩
    exact ih (by simp) (List.forall_mem_cons.mp hlines).2
  | case4 items line lines hfence hheading text hitem ih =>
    apply ih _ (List.forall_mem_cons.mp hlines).2
    intro t ht
    rcases List.mem_append.mp ht with ht | ht
    · exact hitems t ht
    · obtain rfl := List.mem_singleton.mp ht
      exact captured_of_liMatch hitem
  | case5 items line lines hfence hheading hitem ih =>
    obtain ⟨hline, hrest⟩ := List.forall_mem_cons.mp hlines
    refine plain_append.mpr ⟨plain_append.mpr ⟨plain_flushList hitems, ?_⟩, ih (by simp) hrest⟩
    split
    · exact fun b hb => absurd hb List.not_mem_nil
    · next htext =>
      have hprose : Prose line :=
        ⟨hline, by simpa using hfence, hheading, hitem, by simpa using htext⟩
      exact List.forall_mem_singleton.mpr hprose

theorem single_of_mem_lines {b : Block} (h : b.Plain) {line : List Char} (hline : line ∈ b.lines) :
    '\n' ∉ line := by
  have hfence : '\n' ∉ fence := by decide
  have htext {text : List Char} (ht : Captured text) : '\n' ∉ text :=
    fun hmem => absurd (ht.line '\n' hmem) (by decide)
  cases b with
  | code text =>
    simp only [Block.lines, List.cons_append, List.mem_cons, List.mem_append,
      List.not_mem_nil, or_false] at hline
    rcases hline with rfl | hline | rfl | rfl
    · exact hfence
    · exact not_mem_of_mem_splitOn hline
    · exact hfence
    · exact List.not_mem_nil
  | heading level text =>
    simp only [Block.lines, List.mem_cons, List.not_mem_nil, or_false] at hline
    rcases hline with rfl | rfl
    · simp [htext h.2]
    · exact List.not_mem_nil
  | list items =>
    simp only [Block.lines, List.mem_append, List.mem_map, List.mem_singleton] at hline
    rcases hline with ⟨text, ht, rfl⟩ | rfl
    · simp [htext (h.2 text ht)]
    · exact List.not_mem_nil
  | paragraph text =>
    simp only [Block.lines, List.mem_cons, List.not_mem_nil, or_false] at hline
    rcases hline with rfl | rfl
    · exact h.single
    · exact List.not_mem_nil

theorem renderMarkdown_write (h : Plain blocks) : renderMarkdown (write blocks) = blocks := by
  rcases List.eq_nil_or_concat blocks with rfl | ⟨init, b, rfl⟩
  · rw [renderMarkdown, write, List.flatMap_nil]
    exact renderFrom_blank [] [] |>.trans (by rw [renderFrom]; rfl)
  · have hne : (init.concat b).flatMap (·.lines) ≠ [] := by
      cases b <;> simp [Block.lines]
    have hsingle : ∀ line ∈ (init.concat b).flatMap (·.lines), '\n' ∉ line := by
      intro line hline
      obtain ⟨b', hb', hline⟩ := List.mem_flatMap.mp hline
      exact single_of_mem_lines (h b' hb') hline
    rw [renderMarkdown, write, join, List.splitOn_intercalate '\n' hsingle hne,
      renderFrom_flatMap h]

theorem plain_renderMarkdown (src : List Char) : Plain (renderMarkdown src) :=
  plain_renderFrom (by simp) fun _ hline => not_mem_of_mem_splitOn hline

/-- What the viewer shows is what it shows for its own plain spelling, and nothing else can be
shown. -/
theorem rendered_tfae (blocks : List Block) :
    [∃ src, renderMarkdown src = blocks, renderMarkdown (write blocks) = blocks,
      Plain blocks].TFAE := by
  tfae_have 1 → 3 := by
    rintro ⟨src, rfl⟩
    exact plain_renderMarkdown src
  tfae_have 3 → 2 := renderMarkdown_write
  tfae_have 2 → 1 := fun h => ⟨_, h⟩
  tfae_finish

end Range

end ValyriaApp.CustomDoc
