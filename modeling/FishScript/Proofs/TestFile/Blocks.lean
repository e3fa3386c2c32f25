/-
# Blocks are read back

A block that is written line by line is read back, and so is a sequence of them (`blocks_written`):
what a line says depends only on the part of the file it stands in, so the input may hold lines that
look like the name of a block or like its end, and the expected text lines that look like dashes.
Each part takes the lines that belong to it and hands over to the next one (`blocksFrom_input`,
`blocksFrom_expected`), a block takes its own lines (`blocksFrom_page`).
-/
import Mathlib
import FishScript.Proofs.Text.Lines
import FishScript.TestFile.Block

namespace FishScript.TestFile

open Text (IsLine)

/-- The text can stand on a line behind a lead: it is on one line, without white space around it. -/
structure IsEntry (t : Text) : Prop where
  /-- It holds no line feed. -/
  oneLine : '\n' ∉ t
  /-- No white space is around it. -/
  trimmed : t.trim = t

instance (t : Text) : Decidable (IsEntry t) :=
  decidable_of_iff ('\n' ∉ t ∧ t.trim = t) ⟨fun h => ⟨h.1, h.2⟩, fun h => ⟨h.1, h.2⟩⟩

/-- The lines on which a text can be written: what stands between its line feeds. An empty text is
written on an empty line, or on none. -/
def LinesOf (t : Text) (ws : List Text) : Prop := ws = t.pieces '\n' ∨ t = [] ∧ ws = []

/-- The line with the name of a block. -/
def nameLine (name : Text) : Text := nameLead ++ ' ' :: name

/-- The line of a header. -/
def headerLine (header : Text × Text) : Text := '#' :: ' ' :: header.1 ++ [':'] ++ ' ' :: header.2

namespace Block

/-- The block can be written: no line of it ends the part that it stands in, and no white space
at the ends of its lines and texts is needed. -/
structure Writable (b : Block) : Prop where
  /-- The name is on one line. -/
  name : IsEntry b.name
  /-- So are the headers, and the first colon of a header is the one behind its key. -/
  headers : ∀ h ∈ b.headers, IsEntry h.1 ∧ ':' ∉ h.1 ∧ IsEntry h.2
  /-- No line of the input is dashes, and no carriage return is before a line feed. -/
  input : ∀ w ∈ b.input.pieces '\n', w.trim ≠ dashes ∧ w.getLast? ≠ some '\r'
  /-- No line of the expected text is equal signs, and no carriage return is before a line feed. -/
  expected : ∀ w ∈ b.expected.pieces '\n', w.trim ≠ equalSigns ∧ w.getLast? ≠ some '\r'
  /-- No white space is around the expected text. -/
  trimmed : b.expected.trim = b.expected

instance (b : Block) : Decidable b.Writable :=
  decidable_of_iff (IsEntry b.name ∧
      (∀ h ∈ b.headers, IsEntry h.1 ∧ ':' ∉ h.1 ∧ IsEntry h.2) ∧
      (∀ w ∈ b.input.pieces '\n', w.trim ≠ dashes ∧ w.getLast? ≠ some '\r') ∧
      (∀ w ∈ b.expected.pieces '\n', w.trim ≠ equalSigns ∧ w.getLast? ≠ some '\r') ∧
      b.expected.trim = b.expected)
    ⟨fun ⟨h₁, h₂, h₃, h₄, h₅⟩ => ⟨h₁, h₂, h₃, h₄, h₅⟩,
      fun h => ⟨h.name, h.headers, h.input, h.expected, h.trimmed⟩⟩

/-- The lines of a block whose input and expected text are on given lines. -/
def page (b : Block) (input expected : List Text) : List Text :=
  nameLine b.name ::
    (b.headers.map headerLine ++ dashes :: (input ++ dashes :: (expected ++ [equalSigns])))

/-- The block is written on these lines. -/
def WrittenOn (b : Block) (ws : List Text) : Prop :=
  ∃ input expected, LinesOf b.input input ∧ LinesOf b.expected expected ∧ ws = b.page input expected

/-- The text is the block, written line by line with a line feed behind each line. -/
def Written (b : Block) (t : Text) : Prop :=
  ∃ ws, b.WrittenOn ws ∧ t = ws.flatMap (· ++ ['\n'])

end Block

/-! ## Lines of a text -/

namespace LinesOf

variable {t w : Text} {ws : List Text}

lemma joined_eq (h : LinesOf t ws) : Text.joined ['\n'] ws = t := by
  obtain rfl | ⟨rfl, rfl⟩ := h
  · exact Text.joined_pieces '\n' t
  · rfl

lemma mem_pieces (h : LinesOf t ws) (hw : w ∈ ws) : w ∈ t.pieces '\n' := by
  obtain rfl | ⟨-, rfl⟩ := h
  · exact hw
  · cases hw

lemma isLine (h : LinesOf t ws) (hw : w ∈ ws) (hlast : w.getLast? ≠ some '\r') : IsLine w :=
  ⟨Text.not_mem_of_mem_piecesFrom List.not_mem_nil (h.mem_pieces hw), hlast⟩

end LinesOf

/-! ## One line -/

section Step

variable {name : Text} {header : Text × Text} {number : Nat} {o : OpenBlock}

lemma step_name (hname : IsEntry name) :
    Part.step number (nameLine name) .outside = (.headers ⟨name, number, [], [], []⟩, none) := by
  obtain ⟨x, htrim, hx⟩ := Text.exists_trim_lead (show nameLead ≠ [] by decide) (by decide +kernel)
    hname.trimmed
  simp only [Part.step, nameLine, htrim, Text.after?_append, hx]

lemma step_header (hkey : IsEntry header.1) (hcolon : ':' ∉ header.1) (hvalue : IsEntry header.2) :
    Part.step number (headerLine header) (.headers o) =
      (.headers { o with headers := header :: o.headers }, none) := by
  obtain ⟨key, value⟩ := header
  have hlead : Text.trim ('#' :: ' ' :: key ++ [':']) = '#' :: ' ' :: key ++ [':'] :=
    Text.trim_eq_self (by simp [Text.isBlank]) (by simp [List.getLast?_cons, Text.isBlank])
  obtain ⟨x, htrim, hx⟩ := Text.exists_trim_lead (by simp) hlead hvalue.trimmed
  have hcut : Text.cut? ':' (' ' :: key ++ ':' :: x) = some (' ' :: key, x) :=
    Text.cut?_append_cons (by simpa using hcolon) x
  have hkey' : Text.trim (' ' :: key) = key := by
    have hspace : Text.trim ([' '] ++ key ++ []) = key :=
      Text.trim_surrounded (by decide) nofun hkey.trimmed
    simpa using hspace
  have hline : (headerLine (key, value)).trim = '#' :: (' ' :: key ++ ':' :: x) := by
    rw [headerLine, htrim]
    simp
  simp only [Part.step, hline, OpenBlock.withHeader, hcut, hkey', hx]

lemma step_dashes : Part.step number dashes (.headers o) = (.input o, none) := rfl

end Step

/-! ## The lines of a part -/

section Parts

variable {part part' : Part} {number : Nat} {line : Text} {o : OpenBlock} {ws rest : List Text}

lemma blocksFrom_step (h : Part.step number line part = (part', none)) :
    blocksFrom part number (line :: rest) = blocksFrom part' (number + 1) rest := by
  rw [blocksFrom, h]
  rfl

lemma blocksFrom_headers {headers : List (Text × Text)}
    (h : ∀ h ∈ headers, IsEntry h.1 ∧ ':' ∉ h.1 ∧ IsEntry h.2) :
    blocksFrom (.headers o) number (headers.map headerLine ++ dashes :: rest) =
      blocksFrom (.input { o with headers := headers.reverse ++ o.headers })
        (number + headers.length + 1) rest := by
  induction headers generalizing o number with
  | nil => exact blocksFrom_step step_dashes
  | cons header headers ih =>
    obtain ⟨⟨hkey, hcolon, hvalue⟩, hrest⟩ := List.forall_mem_cons.1 h
    rw [List.map_cons, List.cons_append, blocksFrom_step (step_header hkey hcolon hvalue), ih hrest]
    simp [Nat.add_assoc, Nat.add_comm 1]

lemma blocksFrom_input (h : ∀ w ∈ ws, w.trim ≠ dashes) :
    blocksFrom (.input o) number (ws ++ dashes :: rest) =
      blocksFrom (.expected { o with input := ws.reverse ++ o.input })
        (number + ws.length + 1) rest := by
  induction ws generalizing o number with
  | nil => exact blocksFrom_step (by rw [Part.step, if_pos (by decide +kernel)]; rfl)
  | cons w ws ih =>
    obtain ⟨hw, hrest⟩ := List.forall_mem_cons.1 h
    have hstep :
        Part.step number w (.input o) = (.input { o with input := w :: o.input }, none) := by
      rw [Part.step, if_neg (by simpa using hw)]
    rw [List.cons_append, blocksFrom_step hstep, ih hrest]
    simp [Nat.add_assoc, Nat.add_comm 1]

/-- The expected text goes up to the first line with equal signs, where the block ends. -/
lemma blocksFrom_expected (h : ∀ w ∈ ws, w.trim ≠ equalSigns) :
    blocksFrom (.expected o) number (ws ++ equalSigns :: rest) =
      { o with expected := ws.reverse ++ o.expected }.close ::
        blocksFrom .outside (number + ws.length + 1) rest := by
  induction ws generalizing o number with
  | nil =>
    have hstep : Part.step number equalSigns (.expected o) = (.outside, some o.close) := by
      rw [Part.step, if_pos (by decide +kernel)]
    rw [List.nil_append, blocksFrom, hstep]
    rfl
  | cons w ws ih =>
    obtain ⟨hw, hrest⟩ := List.forall_mem_cons.1 h
    have hstep : Part.step number w (.expected o) =
        (.expected { o with expected := w :: o.expected }, none) := by
      rw [Part.step, if_neg (by simpa using hw)]
    rw [List.cons_append, blocksFrom_step hstep, ih hrest]
    simp [Nat.add_assoc, Nat.add_comm 1]

end Parts

/-! ## The lines of a block -/

section Pages

variable {b : Block} {ws rest : List Text} {number : Nat}

theorem blocksFrom_page (hb : b.Writable) (h : b.WrittenOn ws) :
    blocksFrom .outside number (ws ++ rest) =
      { b with line := number } :: blocksFrom .outside (number + ws.length) rest := by
  obtain ⟨input, expected, hinput, hexpected, rfl⟩ := h
  have hclose : OpenBlock.close ⟨b.name, number, b.headers.reverse, input.reverse,
      expected.reverse⟩ = { b with line := number } := by
    simp [OpenBlock.close, hinput.joined_eq, hexpected.joined_eq, hb.trimmed]
  have hlength : number + (b.page input expected).length =
      number + 1 + b.headers.length + 1 + input.length + 1 + expected.length + 1 := by
    simp [Block.page]
    omega
  rw [hlength, ← hclose]
  simp only [Block.page, List.cons_append, List.append_assoc, List.nil_append]
  rw [blocksFrom_step (step_name hb.name), blocksFrom_headers hb.headers,
    blocksFrom_input fun w hw => (hb.input w (hinput.mem_pieces hw)).1,
    blocksFrom_expected fun w hw => (hb.expected w (hexpected.mem_pieces hw)).1]
  simp

lemma isLine_lead {lead t : Text} (hlead : '\n' ∉ lead) (ht : IsEntry t) :
    IsLine (lead ++ ' ' :: t) := by
  refine ⟨?_, fun hlast => ?_⟩
  · simp [hlead, ht.oneLine]
  · rw [List.getLast?_append, List.getLast?_cons] at hlast
    cases hc : t.getLast? with
    | none => simp [hc] at hlast
    | some c =>
      have hblank := (Text.trim_eq_self_iff.1 ht.trimmed).2 c hc
      rw [hc] at hlast
      obtain rfl : c = '\r' := by simpa using hlast
      simp [Text.isBlank] at hblank

lemma isLine_of_writtenOn (hb : b.Writable) (h : b.WrittenOn ws) : ∀ w ∈ ws, IsLine w := by
  obtain ⟨input, expected, hinput, hexpected, rfl⟩ := h
  have hdashes : IsLine dashes := ⟨by decide, by decide⟩
  have hequal : IsLine equalSigns := ⟨by decide, by decide⟩
  intro w hw
  simp only [Block.page, List.mem_cons, List.mem_append, List.mem_map, List.not_mem_nil,
    or_false] at hw
  obtain rfl | ⟨header, hheader, rfl⟩ | rfl | hw | rfl | hw | rfl := hw
  · exact isLine_lead (by decide) hb.name
  · obtain ⟨hkey, -, hvalue⟩ := hb.headers header hheader
    exact isLine_lead (by simp [hkey.oneLine]) hvalue
  · exact hdashes
  · exact hinput.isLine hw (hb.input w (hinput.mem_pieces hw)).2
  · exact hdashes
  · exact hexpected.isLine hw (hb.expected w (hexpected.mem_pieces hw)).2
  · exact hequal

end Pages

/-! ## Sequences of blocks -/

section Sequence

variable {bs : List Block} {pages : List (List Text)} {ts : List Text}

/-- Blocks one behind the other are read one by one, each from the line on which the blocks before
it end. -/
theorem getElem?_blocksFrom (h : List.Forall₂ Block.WrittenOn bs pages)
    (hb : ∀ b ∈ bs, b.Writable) (number i : Nat) :
    (blocksFrom .outside number pages.flatten)[i]? =
      bs[i]?.map fun b => { b with line := number + (pages.take i).flatten.length } := by
  induction h generalizing number i with
  | nil => rfl
  | cons hpage _ ih =>
    obtain ⟨hbw, hrest⟩ := List.forall_mem_cons.1 hb
    rw [List.flatten_cons, blocksFrom_page hbw hpage]
    cases i with
    | zero => rfl
    | succ i =>
      rw [List.getElem?_cons_succ, List.getElem?_cons_succ, ih hrest, List.take_succ_cons,
        List.flatten_cons, List.length_append, Nat.add_assoc]

/-- A block begins with its name, on the line on which the blocks before it end. -/
lemma getElem?_nameLine (h : List.Forall₂ Block.WrittenOn bs pages) {i : Nat} {b : Block}
    (hi : bs[i]? = some b) :
    pages.flatten[(pages.take i).flatten.length]? = some (nameLine b.name) := by
  induction h generalizing i with
  | nil => cases hi
  | cons hpage _ ih =>
    cases i with
    | zero =>
      obtain ⟨input, expected, -, -, rfl⟩ := hpage
      obtain rfl := Option.some.inj hi
      rfl
    | succ i =>
      rw [List.take_succ_cons, List.flatten_cons, List.flatten_cons, List.length_append,
        List.getElem?_append_right (Nat.le_add_right _ _), Nat.add_sub_cancel_left]
      exact ih hi

lemma count_flatMap {ws : List Text} (h : ∀ w ∈ ws, IsLine w) :
    (ws.flatMap (· ++ ['\n'])).count '\n' = ws.length := by
  induction ws with
  | nil => rfl
  | cons w ws ih =>
    obtain ⟨⟨hw, -⟩, hws⟩ := List.forall_mem_cons.1 h
    rw [List.flatMap_cons, List.count_append, List.count_append, List.count_eq_zero_of_not_mem hw,
      ih hws, List.length_cons]
    simp [Nat.add_comm]

/-- The lines of the blocks are the lines of their texts, and the line feeds count them. -/
lemma exists_pages (hb : ∀ b ∈ bs, b.Writable) (h : List.Forall₂ Block.Written bs ts) :
    ∃ pages, List.Forall₂ Block.WrittenOn bs pages ∧ Text.lines ts.flatten = pages.flatten ∧
      ∀ i, (ts.take i).flatten.count '\n' = (pages.take i).flatten.length := by
  induction h with
  | nil => exact ⟨[], .nil, rfl, fun i => by simp⟩
  | cons ht _ ih =>
    obtain ⟨hbw, hrest⟩ := List.forall_mem_cons.1 hb
    obtain ⟨page, hpage, rfl⟩ := ht
    obtain ⟨pages, hpages, hlines, hcount⟩ := ih hrest
    have hpageLines := isLine_of_writtenOn hbw hpage
    refine ⟨page :: pages, .cons hpage hpages, ?_, fun i => ?_⟩
    · rw [List.flatten_cons, Text.lines_flatMap hpageLines, hlines, List.flatten_cons]
    · cases i with
      | zero => rfl
      | succ i =>
        rw [List.take_succ_cons, List.take_succ_cons, List.flatten_cons, List.flatten_cons,
          List.count_append, count_flatMap hpageLines, hcount, List.length_append]

/-- Blocks that are written one behind the other are read back, in their order and none besides, and
the number of each is that of the line with its name. -/
theorem blocks_written (hb : ∀ b ∈ bs, b.Writable) (h : List.Forall₂ Block.Written bs ts) :
    (∀ i : Nat, (blocks ts.flatten)[i]? =
      bs[i]?.map fun b => { b with line := (ts.take i).flatten.count '\n' + 1 }) ∧
    ∀ i b, bs[i]? = some b →
      (Text.lines ts.flatten)[(ts.take i).flatten.count '\n']? = some (nameLine b.name) := by
  obtain ⟨pages, hpages, hlines, hcount⟩ := exists_pages hb h
  refine ⟨fun i => ?_, fun i b hi => ?_⟩
  · rw [hcount, blocks, hlines, getElem?_blocksFrom hpages hb, Nat.add_comm]
  · rw [hcount, hlines, getElem?_nameLine hpages hi]

end Sequence

/-- Two blocks: the input of the first one looks like a block itself and ends with an empty line,
and the second one has neither a name nor an input, and dashes in its expected text. -/
def disguised : List Block :=
  [⟨"a: b".toList, 0, [("autoload".toList, "f: g".toList), ([], [])],
      "# test: no\n===\n".toList, []⟩,
    ⟨[], 0, [], [], "x\n---".toList⟩]

/-- The texts of the two blocks. -/
def disguisedTexts : List Text :=
  ["# test: a: b\n# autoload: f: g\n# : \n---\n# test: no\n===\n\n---\n===\n".toList,
    "# test: \n---\n\n---\nx\n---\n===\n".toList]

theorem blocks_written_disguised : (∀ b ∈ disguised, b.Writable) ∧
    List.Forall₂ Block.Written disguised disguisedTexts ∧
    (blocks disguisedTexts.flatten)[1]? = some ⟨[], 10, [], [], "x\n---".toList⟩ ∧
    (Text.lines disguisedTexts.flatten)[9]? = some (nameLine []) := by
  have hwritable : ∀ b ∈ disguised, b.Writable := by decide +kernel
  have hwritten : List.Forall₂ Block.Written disguised disguisedTexts := by
    refine .cons ?_ (.cons ?_ .nil)
    · exact ⟨_, ⟨_, [], .inl rfl, .inr ⟨rfl, rfl⟩, rfl⟩, by decide +kernel⟩
    · exact ⟨_, ⟨_, _, .inl rfl, .inl rfl, rfl⟩, by decide +kernel⟩
  obtain ⟨hblocks, hlines⟩ := blocks_written hwritable hwritten
  have hcount : (disguisedTexts.take 1).flatten.count '\n' = 9 := by decide +kernel
  have hblock := hblocks 1
  have hline := hlines 1 _ rfl
  rw [hcount] at hblock hline
  exact ⟨hwritable, hwritten, hblock, hline⟩

end FishScript.TestFile
