/-
# Wrapped dumps

A long dump may be wrapped in a test file: outside quotes white space may stand for a space, and it
may be added before closing parentheses and at the two ends (`Rewrapped`). Collapsing takes no
notice of this (`Rewrapped.collapseFrom_eq`), and it leaves a dump as it is (`collapse_dump`),
whatever stands in the leaves, because it knows at every character whether it is between quotes.
-/
import Mathlib
import FishScript.Proofs.Text.Lines
import FishScript.Proofs.Tree.Dump
import FishScript.Proofs.Tree.Planting
import FishScript.TestFile.Run

namespace FishScript.TestFile

open Text (Blank)

/-- The second text is the first one with other white space: outside quotes each space has become
white space of any length but zero, and white space may have been added before closing parentheses.
Quoted texts are the same. -/
inductive Rewrapped : Text → Text → Prop
  /-- Nothing. -/
  | nil : Rewrapped [] []
  /-- A quoted text. -/
  | quoted {d t : Text} (leaf : Text) (h : Rewrapped d t) :
      Rewrapped (leaf.quoted ++ d) (leaf.quoted ++ t)
  /-- A space. -/
  | space {d t white : Text} (hne : white ≠ []) (hwhite : Blank white) (h : Rewrapped d t) :
      Rewrapped (' ' :: d) (white ++ t)
  /-- A closing parenthesis. -/
  | close {d t white : Text} (hwhite : Blank white) (h : Rewrapped d t) :
      Rewrapped (')' :: d) (white ++ ')' :: t)
  /-- Any other character. -/
  | plain {d t : Text} {c : Char} (hquote : c ≠ '"') (hspace : c ≠ ' ') (hclose : c ≠ ')')
      (h : Rewrapped d t) : Rewrapped (c :: d) (c :: t)

/-! ## Collapsing, character by character -/

/-- What is written for white space outside quotes before a character that is not a closing
parenthesis. -/
def gap (spaced first : Bool) : Text := if spaced && !first then [' '] else []

section Collapse

variable {spaced first : Bool} {c : Char} {w t white leaf : Text}

lemma collapseFrom_blank (hc : Text.isBlank c = true) :
    collapseFrom (.outside spaced) first (c :: t) = collapseFrom (.outside true) first t := by
  rw [collapseFrom, if_pos hc]

lemma collapseFrom_white (hne : white ≠ []) (hwhite : Blank white) :
    collapseFrom (.outside spaced) first (white ++ t) = collapseFrom (.outside true) first t := by
  induction white generalizing spaced with
  | nil => exact absurd rfl hne
  | cons c white ih =>
    obtain ⟨hc, hrest⟩ := List.forall_mem_cons.1 hwhite
    rw [List.cons_append, collapseFrom_blank hc]
    rcases white with _ | ⟨d, white⟩
    · rfl
    · exact ih (List.cons_ne_nil d white) hrest

lemma collapseFrom_cons (hc : Text.isBlank c = false) :
    collapseFrom (.outside spaced) first (c :: t) =
      gap (spaced && c != ')') first ++
        c :: collapseFrom (if c = '"' then .quoted false else .outside false) false t := by
  simp only [collapseFrom, hc, gap]
  cases spaced <;> cases first <;> cases c != ')' <;> rfl

lemma collapseFrom_close : collapseFrom (.outside spaced) first (')' :: t) =
    ')' :: collapseFrom (.outside false) false t := by
  rw [collapseFrom_cons (by decide)]
  simp [gap]

lemma collapseFrom_marks (hne : w ≠ []) (hw : ∀ c ∈ w, isMark c = true) :
    collapseFrom (.outside spaced) first (w ++ t) =
      gap spaced first ++ w ++ collapseFrom (.outside false) false t := by
  induction w generalizing spaced first with
  | nil => exact absurd rfl hne
  | cons c w ih =>
    obtain ⟨hc, hw⟩ := List.forall_mem_cons.1 hw
    simp only [isMark, Bool.and_eq_true, Bool.not_eq_true', bne_iff_ne] at hc
    rw [List.cons_append, collapseFrom_cons hc.1.1, if_neg hc.1.2, bne_iff_ne.2 hc.2, Bool.and_true]
    rcases w with _ | ⟨d, w⟩
    · simp
    · rw [ih (List.cons_ne_nil d w) hw]
      simp [gap]

lemma collapseFrom_between (hquote : '"' ∉ w) (hescape : '\\' ∉ w) :
    collapseFrom (.quoted false) false (w ++ t) = w ++ collapseFrom (.quoted false) false t := by
  induction w with
  | nil => rfl
  | cons c w ih =>
    rw [List.mem_cons, not_or] at hquote hescape
    rw [List.cons_append, collapseFrom, if_neg (Ne.symm hquote.1),
      beq_eq_false_iff_ne.2 (Ne.symm hescape.1), ih hquote.2 hescape.2, List.cons_append]

/-- A quoted text is written as it is, and what follows stands outside quotes. -/
theorem collapseFrom_quoted : collapseFrom (.outside spaced) first (leaf.quoted ++ t) =
    gap spaced first ++ leaf.quoted ++ collapseFrom (.outside false) false t := by
  have hescaped : ∀ leaf : Text,
      collapseFrom (.quoted false) false (leaf.flatMap Text.escaped ++ '"' :: t) =
        leaf.flatMap Text.escaped ++ '"' :: collapseFrom (.outside false) false t := by
    intro leaf
    induction leaf with
    | nil => rfl
    | cons c leaf ih =>
      rw [List.flatMap_cons, List.append_assoc, List.append_assoc, ← ih]
      obtain ⟨heq, hquote, hescape⟩ | ⟨d, rest, heq, hquote, hescape⟩ := Text.escaped_eq c
      · rw [heq]
        exact collapseFrom_between (by simpa using hquote.symm) (by simpa using hescape.symm)
      · -- the character behind the backslash is written whatever it is
        have hrest :=
          collapseFrom_between (t := leaf.flatMap Text.escaped ++ '"' :: t) hquote hescape
        simp only [heq, List.cons_append, ← hrest]
        rfl
  rw [Text.quoted_append, collapseFrom_cons (by decide), if_pos rfl, hescaped]
  simp [Text.quoted, gap]

end Collapse

/-- Collapsing does not see how a text is wrapped. -/
theorem Rewrapped.collapseFrom_eq {d t : Text} (h : Rewrapped d t) (spaced first : Bool) :
    collapseFrom (.outside spaced) first t = collapseFrom (.outside spaced) first d := by
  induction h generalizing spaced first with
  | nil => rfl
  | quoted leaf _ ih => rw [collapseFrom_quoted, collapseFrom_quoted, ih]
  | space hne hwhite _ ih => rw [collapseFrom_white hne hwhite, ih, collapseFrom_blank (by decide)]
  | @close d t white hwhite _ ih =>
    rcases white with _ | ⟨c, white⟩
    · rw [List.nil_append, collapseFrom_close, collapseFrom_close, ih]
    · rw [collapseFrom_white (List.cons_ne_nil c white) hwhite, collapseFrom_close,
        collapseFrom_close, ih]
  | @plain d t c hquote _ _ _ ih =>
    cases hc : Text.isBlank c with
    | true => rw [collapseFrom_blank hc, collapseFrom_blank hc, ih]
    | false =>
      rw [collapseFrom_cons hc, collapseFrom_cons hc, if_neg hquote, ih]

/-! ## Dumps -/

section Dumps

/-- The bare part of a dump: an opening parenthesis and the name of a kind. -/
lemma collapseFrom_name (kind : NodeKind) (spaced first : Bool) (t : Text) :
    collapseFrom (.outside spaced) first ('(' :: (kind.name.toList ++ t)) =
      gap spaced first ++ '(' :: kind.name.toList ++ collapseFrom (.outside false) false t := by
  refine collapseFrom_marks (w := '(' :: kind.name.toList) (List.cons_ne_nil _ _) ?_
  exact List.forall_mem_cons.2 ⟨by decide, kind.isMark_of_mem_name⟩

lemma collapseFrom_label (field : Field) (t : Text) :
    collapseFrom (.outside true) false (Field.lead (some field) ++ t) =
      ' ' :: (field.label.toList ++ ':' :: collapseFrom (.outside true) false t) := by
  have hmark : ∀ c ∈ field.label.toList ++ [':'], isMark c = true := by
    rw [← List.all_eq_true]
    cases field <;> rfl
  have hlead : Field.lead (some field) ++ t = (field.label.toList ++ [':']) ++ ' ' :: t := by
    simp [Field.lead]
  rw [hlead, collapseFrom_marks (by simp) hmark, collapseFrom_blank (by decide)]
  simp [gap]

mutual

theorem collapseFrom_dump : ∀ (s : Sketch) (spaced first : Bool) (t : Text),
    collapseFrom (.outside spaced) first (s.dump ++ t) =
      gap spaced first ++ s.dump ++ collapseFrom (.outside false) false t
  | .leaf kind text, spaced, first, t => by
    rw [Sketch.dump_leaf_append, collapseFrom_name, collapseFrom_blank (by decide),
      collapseFrom_quoted, collapseFrom_close]
    simp [Sketch.dump, gap]
  | .inner kind parts, spaced, first, t => by
    rw [Sketch.dump_inner_append, collapseFrom_name, collapseFrom_dumpParts parts,
      collapseFrom_close]
    simp [Sketch.dump]

theorem collapseFrom_dumpParts : ∀ (parts : List (Option Field × Sketch)) (t : Text),
    collapseFrom (.outside false) false (dumpParts parts ++ t) =
      dumpParts parts ++ collapseFrom (.outside false) false t
  | [], t => rfl
  | (field, s) :: parts, t => by
    have hrest : ∀ spaced, collapseFrom (.outside spaced) false (s.dump ++ (dumpParts parts ++ t)) =
        gap spaced false ++ (s.dump ++ (dumpParts parts ++
          collapseFrom (.outside false) false t)) := fun spaced => by
      rw [collapseFrom_dump s, collapseFrom_dumpParts parts, List.append_assoc]
    simp only [dumpParts, List.cons_append, List.append_assoc]
    rw [collapseFrom_blank (by decide)]
    cases field with
    | none => exact hrest true
    | some field =>
      rw [collapseFrom_label, hrest]
      simp [Field.lead, gap]

end

lemma trim_of_parentheses {t : Text} (hopen : t.head? = some '(') (hclose : t.getLast? = some ')') :
    t.trim = t := by
  refine Text.trim_eq_self (fun c hc => ?_) fun c hc => ?_
  · rw [hopen, Option.mem_some_iff] at hc
    exact hc ▸ rfl
  · rw [hclose, Option.mem_some_iff] at hc
    exact hc ▸ rfl

variable (source : Text) (n : Node)

lemma head?_dump : (n.dump source).head? = some '(' := by
  rw [n.dump_eq]
  cases n.sketch source <;> rfl

lemma getLast?_dump : (n.dump source).getLast? = some ')' := by
  rw [n.dump_eq]
  cases n.sketch source <;> simp [Sketch.dump, List.getLast?_cons, List.getLast?_append]

theorem collapseFrom_dump_self :
    collapseFrom (.outside false) true (n.dump source) = n.dump source := by
  have h := collapseFrom_dump (n.sketch source) false true []
  rwa [← n.dump_eq, List.append_nil, collapseFrom, List.append_nil] at h

theorem collapse_dump : collapse (n.dump source) = n.dump source := by
  rw [collapse, trim_of_parentheses (head?_dump source n) (getLast?_dump source n),
    collapseFrom_dump_self]

end Dumps

/-! ## Wrapped dumps -/

namespace Rewrapped

variable {d t : Text}

/-- White space added at a closing parenthesis stands before it, and white space for a space at the
start only where the space is. -/
lemma head?_eq (h : Rewrapped d t) (hspace : d.head? ≠ some ' ') (hclose : d.head? ≠ some ')') :
    t.head? = d.head? := by
  cases h with
  | nil => rfl
  | quoted leaf _ => rfl
  | space => exact absurd rfl hspace
  | close => exact absurd rfl hclose
  | plain => rfl

lemma getLast?_eq (h : Rewrapped d t) (hspace : d.getLast? ≠ some ' ') :
    t.getLast? = d.getLast? := by
  have hrest : ∀ {w d : Text}, (w ++ d).getLast? ≠ some ' ' → d.getLast? ≠ some ' ' :=
    fun hne hd => hne (by rw [List.getLast?_append, hd, Option.some_or])
  induction h with
  | nil => rfl
  | quoted leaf _ ih => rw [List.getLast?_append, List.getLast?_append, ih (hrest hspace)]
  | @space d t white _ _ _ ih =>
    obtain ⟨c, hc⟩ : ∃ c, d.getLast? = some c := by
      cases hd : d.getLast? with
      | none => simp [List.getLast?_eq_none_iff.1 hd] at hspace
      | some c => exact ⟨c, rfl⟩
    have ht := ih (hrest (w := [' ']) hspace)
    rw [List.getLast?_append, ht, List.getLast?_cons, hc]
    rfl
  | close _ _ ih =>
    rw [List.getLast?_append, List.getLast?_cons, List.getLast?_cons,
      ih (hrest (w := [')']) hspace)]
    rfl
  | @plain d t c _ _ _ _ ih =>
    rw [List.getLast?_cons, List.getLast?_cons, ih (hrest (w := [c]) hspace)]

/-- A wrapped dump, with white space around it, collapses to the dump. -/
theorem collapse_eq {source front back : Text} {n : Node} (h : Rewrapped (n.dump source) t)
    (hfront : Blank front) (hback : Blank back) :
    collapse (front ++ t ++ back) = n.dump source := by
  have hopen : t.head? = some '(' := by
    rw [h.head?_eq, head?_dump] <;> simp [head?_dump]
  have hclose : t.getLast? = some ')' := by
    rw [h.getLast?_eq, getLast?_dump]
    simp [getLast?_dump]
  rw [collapse, Text.trim_surrounded hfront hback (trim_of_parentheses hopen hclose),
    h.collapseFrom_eq, collapseFrom_dump_self]

lemma plains {w : Text} (hquote : '"' ∉ w) (hspace : ' ' ∉ w) (hclose : ')' ∉ w)
    (h : Rewrapped d t) : Rewrapped (w ++ d) (w ++ t) := by
  induction w with
  | nil => exact h
  | cons c w ih =>
    rw [List.mem_cons, not_or] at hquote hspace hclose
    exact .plain (Ne.symm hquote.1) (Ne.symm hspace.1) (Ne.symm hclose.1)
      (ih hquote.2 hspace.2 hclose.2)

end Rewrapped

/-! ## Collapsing twice -/

section Twice

variable {first : Bool} {t : Text}

/-- What is written for white space stands for it. -/
lemma collapseFrom_gap (spaced : Bool) :
    collapseFrom (.outside false) first (gap spaced first ++ t) =
      collapseFrom (.outside (spaced && !first)) first t := by
  cases spaced <;> cases first <;> rfl

/-- Nothing is left to collapse, also in the rest of a text that is read outside quotes with white
space before it. -/
lemma collapseFrom_collapseFrom (t : Text) : (∀ escaped,
      collapseFrom (.quoted escaped) false (collapseFrom (.quoted escaped) false t) =
        collapseFrom (.quoted escaped) false t) ∧
    ∀ spaced first,
      collapseFrom (.outside false) first (collapseFrom (.outside spaced) first t) =
        collapseFrom (.outside spaced) first t := by
  induction t with
  | nil => exact ⟨fun _ => rfl, fun _ _ => rfl⟩
  | cons c t ih =>
    obtain ⟨hquoted, houtside⟩ := ih
    refine ⟨fun escaped => ?_, fun spaced first => ?_⟩
    · cases escaped with
      | true => rw [collapseFrom, collapseFrom, hquoted]
      | false =>
        rw [collapseFrom, collapseFrom]
        split
        · rw [houtside]
        · rw [hquoted]
    · cases hc : Text.isBlank c with
      | true => rw [collapseFrom_blank hc, houtside]
      | false =>
        have hrest : ∀ spaced' first', collapseFrom (.outside spaced') first'
            (c :: collapseFrom (if c = '"' then .quoted false else .outside false) false t) =
              gap (spaced' && c != ')') first' ++
                c :: collapseFrom (if c = '"' then .quoted false else .outside false) false t := by
          intro spaced' first'
          rw [collapseFrom_cons hc]
          split
          · rw [hquoted]
          · rw [houtside]
        rw [collapseFrom_cons hc, collapseFrom_gap, hrest]
        congr 1
        cases spaced <;> cases first <;> cases c != ')' <;> rfl

lemma head?_collapseFrom (h : ∀ c ∈ t.head?, Text.isBlank c = false) :
    (collapseFrom (.outside false) first t).head? = t.head? := by
  cases t with
  | nil => rfl
  | cons c t => rw [collapseFrom_cons (h c rfl)]; rfl

lemma exists_collapseFrom_cons (place : DumpPlace) (first : Bool) (c : Char) (t : Text) :
    ∃ w place' first', collapseFrom place first (c :: t) = w ++ collapseFrom place' first' t ∧
      (Text.isBlank c = false → w.getLast? = some c) := by
  cases place with
  | quoted escaped => cases escaped <;> exact ⟨[c], _, _, rfl, fun _ => rfl⟩
  | outside spaced =>
    cases hc : Text.isBlank c with
    | true => exact ⟨[], _, _, collapseFrom_blank hc, fun h => nomatch h⟩
    | false =>
      refine ⟨gap (spaced && c != ')') first ++ [c],
        if c = '"' then .quoted false else .outside false, false, ?_, fun _ => by simp⟩
      rw [collapseFrom_cons hc, List.append_assoc, List.singleton_append]

lemma getLast?_collapseFrom (place : DumpPlace) (first : Bool)
    (h : ∀ c ∈ t.getLast?, Text.isBlank c = false) :
    (collapseFrom place first t).getLast? = t.getLast? := by
  induction t generalizing place first with
  | nil => rfl
  | cons c t ih =>
    obtain ⟨w, place', first', heq, hw⟩ := exists_collapseFrom_cons place first c t
    rw [heq, List.getLast?_append]
    rcases t with _ | ⟨d, t⟩
    · exact hw (h c rfl)
    · rw [ih place' first' h]
      rfl

theorem collapse_collapse (t : Text) : collapse (collapse t) = collapse t := by
  obtain ⟨-, -, -, -, -, hhead, hlast⟩ := Text.exists_eq_trim t
  have htrim : (collapse t).trim = collapse t := by
    refine Text.trim_eq_self ?_ ?_
    · rwa [collapse, head?_collapseFrom hhead]
    · rwa [collapse, getLast?_collapseFrom _ _ hlast]
  rw [collapse, htrim, collapse, (collapseFrom_collapseFrom _).2]

end Twice

/-! ## Expected dumps -/

/-- Collapsing once is enough, a dump is left as it is, and a dump that is wrapped collapses to the
dump. So a case passes whose expected text is the dump of the tree of its input, wrapped in any
way. -/
theorem collapse_rewrapped :
    (∀ t, collapse (collapse t) = collapse t) ∧
    (∀ source (n : Node), collapse (n.dump source) = n.dump source) ∧
    (∀ source (n : Node) front back t, Blank front → Blank back → Rewrapped (n.dump source) t →
      collapse (front ++ t ++ back) = n.dump source) ∧
    ∀ input, ∃ root, (parse input).bind Tree.root = .ok root ∧
      ∀ front back t, Blank front → Blank back → Rewrapped (root.dump input) t →
        ∀ name line headers,
          runDump ⟨name, line, headers, input, front ++ t ++ back⟩ = .pass := by
  refine ⟨collapse_collapse, collapse_dump, fun source n front back t hfront hback h =>
    h.collapse_eq hfront hback, fun input => ?_⟩
  have hroot : (parse input).bind Tree.root = .ok (rootOf input) := by
    rw [parse_eq]
    rfl
  refine ⟨rootOf input, hroot, fun front back t hfront hback h name line headers => ?_⟩
  rw [runDump, parse_eq]
  show Outcome.compare (collapse (front ++ t ++ back)) (collapse ((rootOf input).dump input)) = _
  rw [h.collapse_eq hfront hback, collapse_dump, Outcome.compare, if_pos rfl]

/-- A command whose name is a closing parenthesis, white space and a double quote between single
quotes. -/
def quotedCloser : Text := "')  \"'".toList

/-- The dump of its tree on four lines. -/
def quotedCloserWrapped : Text :=
  "(program\n\t(command  name:\n(word \"')  \\\"'\" )\n )\n)".toList

theorem collapse_rewrapped_quotedCloser : Blank [] ∧ Blank ['\n'] ∧
    (∃ root, (parse quotedCloser).bind Tree.root = .ok root ∧
      Rewrapped (root.dump quotedCloser) quotedCloserWrapped) ∧
    runDump ⟨[], 1, [], quotedCloser, [] ++ quotedCloserWrapped ++ ['\n']⟩ = .pass := by
  obtain ⟨-, -, -, hrun⟩ := collapse_rewrapped
  obtain ⟨root, hroot, hpass⟩ := hrun quotedCloser
  have heq : root = rootOf quotedCloser := by
    rw [parse_eq] at hroot
    exact (Except.ok.inj hroot).symm
  have hrewrapped : Rewrapped (root.dump quotedCloser) quotedCloserWrapped := by
    have hclosers : Rewrapped [')', ')', ')'] " )\n )\n)".toList :=
      .close (show Blank [' '] by decide) (.close (show Blank ['\n', ' '] by decide)
        (.close (show Blank ['\n'] by decide) .nil))
    have hword := Rewrapped.plains (w := "(word".toList) (by decide) (by decide) (by decide)
      (.space (by decide) (show Blank [' '] by decide) (.quoted quotedCloser hclosers))
    have hcommand := Rewrapped.plains (w := "(command".toList) (by decide) (by decide) (by decide)
      (.space (by decide) (show Blank [' ', ' '] by decide)
        (.plains (w := "name:".toList) (by decide) (by decide) (by decide)
          (.space (by decide) (show Blank ['\n'] by decide) hword)))
    have hprogram := Rewrapped.plains (w := "(program".toList) (by decide) (by decide) (by decide)
      (.space (by decide) (show Blank ['\n', '\t'] by decide) hcommand)
    convert hprogram using 1
    · rw [heq]
      decide +kernel
    · decide +kernel
  exact ⟨by decide, by decide, ⟨root, hroot, hrewrapped⟩,
    hpass [] ['\n'] _ (by decide) (by decide) hrewrapped [] 1 []⟩

end FishScript.TestFile
