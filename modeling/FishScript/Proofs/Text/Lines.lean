/-
# Lines and white space

What is trimmed of a text is white space, and what is left does not begin or end with any
(`exists_eq_trim`, `trim_eq_self_iff`).

Lines that are written one after the other, a line feed behind each or between two of them, are the
lines that are read (`lines_flatMap`, `lines_joined`), as long as a line holds no line feed and no
carriage return at its end. Pieces are simpler: texts without a separator are the pieces of what
they are joined to (`pieces_joined`), and the pieces of a text joined again are the text
(`joined_pieces`).
-/
import Mathlib
import FishScript.Text.Basic

namespace FishScript.Text

/-! ## White space at the ends -/

/-- All characters are white space. -/
def Blank (t : Text) : Prop := ∀ c ∈ t, isBlank c = true

instance (t : Text) : Decidable (Blank t) := List.decidableBAll (fun c => isBlank c = true) t

/-- The first character is no white space. -/
def Visible (t : Text) : Prop := ∃ c ∈ t.head?, isBlank c = false

section Trim

variable {t front back : Text}

lemma exists_eq_trimStart (t : Text) : ∃ front, Blank front ∧ t = front ++ t.trimStart ∧
    ∀ c ∈ t.trimStart.head?, isBlank c = false := by
  refine ⟨t.takeWhile isBlank, fun c hc => List.mem_takeWhile_imp hc,
    (List.takeWhile_append_dropWhile).symm, fun c hc => ?_⟩
  have hhead := List.head?_dropWhile_not isBlank t
  rw [show (t.dropWhile isBlank).head? = some c from hc] at hhead
  exact hhead

lemma exists_eq_trimEnd (t : Text) : ∃ back, Blank back ∧ t = t.trimEnd ++ back ∧
    ∀ c ∈ t.trimEnd.getLast?, isBlank c = false := by
  obtain ⟨front, hfront, heq, hhead⟩ := exists_eq_trimStart t.reverse
  refine ⟨front.reverse, fun c hc => hfront c (List.mem_reverse.1 hc), ?_, fun c hc => ?_⟩
  · rw [trimEnd, ← trimStart, ← List.reverse_append, ← heq, List.reverse_reverse]
  · rw [trimEnd, List.getLast?_reverse] at hc
    exact hhead c hc

/-- What is trimmed of a text is white space, and what is left neither begins nor ends with any. -/
theorem exists_eq_trim (t : Text) : ∃ front back, Blank front ∧ Blank back ∧
    t = front ++ t.trim ++ back ∧ (∀ c ∈ t.trim.head?, isBlank c = false) ∧
      ∀ c ∈ t.trim.getLast?, isBlank c = false := by
  obtain ⟨front, hfront, heq, hhead⟩ := exists_eq_trimStart t
  obtain ⟨back, hback, heq', hlast⟩ := exists_eq_trimEnd t.trimStart
  refine ⟨front, back, hfront, hback, ?_, fun c hc => hhead c ?_, hlast⟩
  · rw [trim, List.append_assoc, ← heq', ← heq]
  · rw [heq', List.head?_append, show t.trimStart.trimEnd.head? = some c from hc]
    rfl

lemma trimStart_append (hfront : Blank front) (t : Text) :
    trimStart (front ++ t) = trimStart t :=
  List.dropWhile_append_of_pos hfront

lemma trimEnd_append (hback : Blank back) (t : Text) : trimEnd (t ++ back) = trimEnd t := by
  rw [trimEnd, List.reverse_append,
    List.dropWhile_append_of_pos fun c hc => hback c (List.mem_reverse.1 hc), trimEnd]

lemma trim_eq_self (hhead : ∀ c ∈ t.head?, isBlank c = false)
    (hlast : ∀ c ∈ t.getLast?, isBlank c = false) : t.trim = t := by
  have hself : ∀ {t : Text}, (∀ c ∈ t.head?, isBlank c = false) → t.dropWhile isBlank = t := by
    intro t ht
    cases t with
    | nil => rfl
    | cons c t => rw [List.dropWhile_cons_of_neg (by simp [ht c rfl])]
  rw [trim, trimStart, hself hhead, trimEnd, hself (by rwa [List.head?_reverse]),
    List.reverse_reverse]

lemma trim_eq_self_iff : t.trim = t ↔ (∀ c ∈ t.head?, isBlank c = false) ∧
    ∀ c ∈ t.getLast?, isBlank c = false := by
  refine ⟨fun h => ?_, fun h => trim_eq_self h.1 h.2⟩
  obtain ⟨-, -, -, -, -, hends⟩ := exists_eq_trim t
  rwa [h] at hends

lemma trim_surrounded (hfront : Blank front) (hback : Blank back) (ht : t.trim = t) :
    (front ++ t ++ back).trim = t := by
  rw [trim, List.append_assoc, trimStart_append hfront]
  cases t with
  | nil =>
    rw [List.nil_append, trimStart, List.dropWhile_eq_nil_iff.2 hback]
    rfl
  | cons c t =>
    have hstart : ∀ t : Text, trimStart (c :: t) = c :: t := fun t =>
      List.dropWhile_cons_of_neg (by simp [(trim_eq_self_iff.1 ht).1 c rfl])
    rw [List.cons_append, hstart, ← List.cons_append, trimEnd_append hback]
    rwa [trim, hstart] at ht

end Trim

/-- A text behind a lead and a space is found behind the lead once the white space at the ends of
the line is gone. -/
lemma exists_trim_lead {lead t : Text} (hne : lead ≠ []) (hlead : lead.trim = lead)
    (ht : t.trim = t) : ∃ x, (lead ++ ' ' :: t).trim = lead ++ x ∧ x.trim = t := by
  have hspace : Blank [' '] := by decide
  by_cases hempty : t = []
  · subst hempty
    have htrim : trim ([] ++ lead ++ [' ']) = lead := trim_surrounded nofun hspace hlead
    exact ⟨[], by simpa using htrim, rfl⟩
  · have hlast : (lead ++ ' ' :: t).getLast? = t.getLast? := by
      obtain ⟨c, hc⟩ := Option.isSome_iff_exists.1 (List.getLast?_isSome.2 hempty)
      simp [List.getLast?_append, List.getLast?_cons, hc]
    refine ⟨' ' :: t, trim_eq_self ?_ ?_, ?_⟩
    · rw [List.head?_append_of_ne_nil _ hne]
      exact (trim_eq_self_iff.1 hlead).1
    · rw [hlast]
      exact (trim_eq_self_iff.1 ht).2
    · have htrim : trim ([' '] ++ t ++ []) = t := trim_surrounded hspace nofun ht
      simpa using htrim

lemma trim_eq_nil_iff {t : Text} : t.trim = [] ↔ Blank t := by
  constructor
  · intro h
    obtain ⟨front, back, hfront, hback, heq, -⟩ := exists_eq_trim t
    rw [heq, h, List.append_nil]
    exact List.forall_mem_append.2 ⟨hfront, hback⟩
  · intro h
    have htrim : trim (t ++ [] ++ []) = [] := trim_surrounded h nofun rfl
    simpa using htrim

lemma mem_of_mem_trim {t : Text} {c : Char} (h : c ∈ t.trim) : c ∈ t := by
  obtain ⟨front, back, -, -, heq, -⟩ := exists_eq_trim t
  rw [heq]
  exact List.mem_append_left back (List.mem_append_right front h)

lemma trim_trim (t : Text) : t.trim.trim = t.trim := by
  obtain ⟨-, -, -, -, -, hhead, hlast⟩ := exists_eq_trim t
  exact trim_eq_self hhead hlast

/-! ## Pieces -/

section Pieces

variable {sep : Char} {current t w : Text} {ws : List Text}

lemma not_mem_of_mem_piecesFrom (hcurrent : sep ∉ current) (h : w ∈ piecesFrom sep current t) :
    sep ∉ w := by
  induction t generalizing current with
  | nil =>
    rw [List.mem_singleton.1 h, List.mem_reverse]
    exact hcurrent
  | cons c t ih =>
    rw [piecesFrom] at h
    split at h
    case isTrue =>
      rcases List.mem_cons.1 h with rfl | h
      · rw [List.mem_reverse]
        exact hcurrent
      · exact ih List.not_mem_nil h
    case isFalse hc => exact ih (by simp [hcurrent, Ne.symm hc]) h

lemma piecesFrom_append_cons (hw : sep ∉ w) (current t : Text) :
    piecesFrom sep current (w ++ sep :: t) = (current.reverse ++ w) :: piecesFrom sep [] t := by
  induction w generalizing current with
  | nil => rw [List.nil_append, piecesFrom, if_pos rfl, List.append_nil]
  | cons c w ih =>
    rw [List.mem_cons, not_or] at hw
    rw [List.cons_append, piecesFrom, if_neg (Ne.symm hw.1), ih hw.2, List.reverse_cons,
      List.append_assoc, List.singleton_append]

lemma piecesFrom_of_not_mem (hw : sep ∉ w) (current : Text) :
    piecesFrom sep current w = [current.reverse ++ w] := by
  induction w generalizing current with
  | nil => rw [piecesFrom, List.append_nil]
  | cons c w ih =>
    rw [List.mem_cons, not_or] at hw
    rw [piecesFrom, if_neg (Ne.symm hw.1), ih hw.2, List.reverse_cons, List.append_assoc,
      List.singleton_append]

lemma piecesFrom_ne_nil (sep : Char) (current t : Text) : piecesFrom sep current t ≠ [] := by
  induction t generalizing current with
  | nil => exact List.cons_ne_nil _ _
  | cons c t ih =>
    rw [piecesFrom]
    split
    · exact List.cons_ne_nil _ _
    · exact ih _

/-- Texts without separators, with one behind each, are the pieces, before an empty one. -/
lemma pieces_flatMap (h : ∀ w ∈ ws, sep ∉ w) :
    pieces sep (ws.flatMap (· ++ [sep])) = ws ++ [[]] := by
  induction ws with
  | nil => rfl
  | cons w ws ih =>
    obtain ⟨hw, hws⟩ := List.forall_mem_cons.1 h
    rw [List.flatMap_cons, List.append_assoc, List.singleton_append, pieces,
      piecesFrom_append_cons hw, ← pieces, ih hws]
    rfl

lemma joined_cons (sep w : Text) (hws : ws ≠ []) :
    joined sep (w :: ws) = w ++ sep ++ joined sep ws := by
  obtain ⟨w', ws, rfl⟩ := List.exists_cons_of_ne_nil hws
  simp [joined]

lemma joined_concat (sep w : Text) (ws : List Text) :
    joined sep (ws ++ [w]) = ws.flatMap (· ++ sep) ++ w := by
  induction ws with
  | nil => simp [joined]
  | cons v ws ih =>
    rw [List.cons_append, joined_cons _ _ (List.concat_ne_nil w ws), ih, List.flatMap_cons,
      List.append_assoc, List.append_assoc, List.append_assoc]

/-- Texts without separators, with one between two of them, are the pieces. -/
theorem pieces_joined (h : ∀ w ∈ ws, sep ∉ w) (hne : ws ≠ []) :
    pieces sep (joined [sep] ws) = ws := by
  induction ws with
  | nil => exact absurd rfl hne
  | cons w ws ih =>
    obtain ⟨hw, hws⟩ := List.forall_mem_cons.1 h
    by_cases hlast : ws = []
    · subst hlast
      exact (congrArg (pieces sep) (by simp [joined])).trans (piecesFrom_of_not_mem hw [])
    · rw [joined_cons _ _ hlast, List.append_assoc, List.singleton_append, pieces,
        piecesFrom_append_cons hw, ← pieces, ih hws hlast]
      rfl

/-- The pieces of a text with the separator between two of them are the text. -/
theorem joined_pieces (sep : Char) (t : Text) : joined [sep] (t.pieces sep) = t := by
  have hread : ∀ current, joined [sep] (piecesFrom sep current t) = current.reverse ++ t := by
    induction t with
    | nil =>
      intro current
      simp [piecesFrom, joined]
    | cons c t ih =>
      intro current
      rw [piecesFrom]
      split
      case isTrue hc =>
        rw [joined_cons _ _ (piecesFrom_ne_nil sep [] t), ih, hc, List.append_assoc]
        rfl
      case isFalse => rw [ih, List.reverse_cons, List.append_assoc, List.singleton_append]
  exact hread []

end Pieces

/-! ## Lines -/

/-- The text can stand on a line: it holds no line feed, and no carriage return at its end, where
one belongs to the line feed behind the line. -/
def IsLine (w : Text) : Prop := '\n' ∉ w ∧ w.getLast? ≠ some '\r'

section Lines

variable {current t w : Text} {ws : List Text}

lemma closeLine_reverse (h : w.getLast? ≠ some '\r') : closeLine w.reverse = w := by
  rw [← List.head?_reverse] at h
  generalize hw : w.reverse = v at h
  rw [← List.reverse_reverse w, hw]
  unfold closeLine
  split
  · exact absurd rfl h
  · rfl

lemma linesFrom_append_cons (hw : '\n' ∉ w) (current t : Text) :
    linesFrom current (w ++ '\n' :: t) = closeLine (w.reverse ++ current) :: linesFrom [] t := by
  induction w generalizing current with
  | nil => rw [List.nil_append, linesFrom, if_pos rfl, List.reverse_nil, List.nil_append]
  | cons c w ih =>
    rw [List.mem_cons, not_or] at hw
    rw [List.cons_append, linesFrom, if_neg (Ne.symm hw.1), ih hw.2, List.reverse_cons,
      List.append_assoc, List.singleton_append]

/-- Lines with a line feed behind each are the lines that are read, before those of the rest. -/
theorem lines_flatMap (h : ∀ w ∈ ws, IsLine w) (t : Text) :
    lines (ws.flatMap (· ++ ['\n']) ++ t) = ws ++ lines t := by
  induction ws with
  | nil => rfl
  | cons w ws ih =>
    obtain ⟨⟨hw, hlast⟩, hws⟩ := List.forall_mem_cons.1 h
    rw [List.flatMap_cons, List.append_assoc, List.append_assoc, List.singleton_append, lines,
      linesFrom_append_cons hw, List.append_nil, closeLine_reverse hlast, ← lines, ih hws,
      List.cons_append]

lemma lines_of_not_mem (hw : '\n' ∉ w) (hne : w ≠ []) : lines w = [w] := by
  have hread : ∀ {w : Text} (current : Text), '\n' ∉ w → w.reverse ++ current ≠ [] →
      linesFrom current w = [current.reverse ++ w] := by
    intro w
    induction w with
    | nil =>
      intro current _ hne
      rw [linesFrom, List.append_nil, if_neg (by simpa using hne)]
    | cons c w ih =>
      intro current hw hne
      rw [List.mem_cons, not_or] at hw
      rw [linesFrom, if_neg (Ne.symm hw.1), ih _ hw.2 (by simp), List.reverse_cons,
        List.append_assoc, List.singleton_append]
  exact hread [] hw (by simpa using hne)

/-- Lines with a line feed between two of them are the lines that are read, if the last one is not
empty. -/
theorem lines_joined (h : ∀ w ∈ ws, IsLine w) (hlast : ws.getLast? ≠ some []) :
    lines (joined ['\n'] ws) = ws := by
  rcases List.eq_nil_or_concat' ws with rfl | ⟨ws, w, rfl⟩
  · rfl
  · obtain ⟨hws, hw⟩ := List.forall_mem_append.1 h
    rw [joined_concat, lines_flatMap hws,
      lines_of_not_mem (hw w List.mem_cons_self).1 (by simpa using hlast)]

lemma not_mem_of_mem_linesFrom (hcurrent : '\n' ∉ current) (h : w ∈ linesFrom current t) :
    '\n' ∉ w := by
  induction t generalizing current with
  | nil =>
    rw [linesFrom] at h
    split at h
    · cases h
    · rw [List.mem_singleton.1 h, List.mem_reverse]
      exact hcurrent
  | cons c t ih =>
    rw [linesFrom] at h
    split at h
    case isTrue =>
      rcases List.mem_cons.1 h with rfl | h
      · unfold closeLine
        split <;> simp_all
      · exact ih List.not_mem_nil h
    case isFalse hc => exact ih (by simp [hcurrent, Ne.symm hc]) h

lemma not_mem_firstLine (t : Text) : '\n' ∉ t.firstLine := by
  rw [firstLine]
  cases hfirst : (lines t).head? with
  | none => exact List.not_mem_nil
  | some w => exact not_mem_of_mem_linesFrom List.not_mem_nil (List.mem_of_mem_head? hfirst)

/-- What a line begins with is not lost at its end. -/
lemma exists_closeLine_concat {c : Char} (hc : c ≠ '\r') (x : Text) :
    ∃ w, closeLine (x ++ [c]) = c :: w := by
  unfold closeLine
  split
  case h_1 t heq =>
    rcases x with _ | ⟨d, x⟩
    · exact absurd (List.cons.inj heq).1 hc
    · obtain ⟨-, rfl⟩ := List.cons.inj heq
      exact ⟨x.reverse, by simp⟩
  case h_2 => exact ⟨x.reverse, by simp⟩

lemma exists_linesFrom_concat {c : Char} (hc : c ≠ '\r') (x t : Text) :
    ∃ w ls, linesFrom (x ++ [c]) t = (c :: w) :: ls := by
  induction t generalizing x with
  | nil => exact ⟨x.reverse, [], by simp [linesFrom]⟩
  | cons d t ih =>
    rw [linesFrom]
    split
    · obtain ⟨w, hw⟩ := exists_closeLine_concat hc x
      exact ⟨w, _, by rw [hw]⟩
    · exact ih (d :: x)

/-- What a text shows where it begins it shows on its first line. -/
theorem Visible.firstLine (h : t.Visible) : ¬ Blank t.firstLine := by
  obtain ⟨c, hc, hblank⟩ := h
  obtain ⟨t, rfl⟩ := List.head?_eq_some_iff.1 hc
  have hne : ∀ d : Char, isBlank d = true → c ≠ d := by
    rintro d hd rfl
    rw [hblank] at hd
    cases hd
  obtain ⟨w, ls, hlines⟩ := exists_linesFrom_concat (hne '\r' (by decide)) [] t
  intro hall
  rw [Text.firstLine, lines, linesFrom, if_neg (hne '\n' (by decide))] at hall
  rw [List.nil_append] at hlines
  rw [hlines] at hall
  rw [hall c List.mem_cons_self] at hblank
  cases hblank

end Lines

/-! ## What a line begins with -/

lemma after?_append (start t : Text) : after? start (start ++ t) = some t := by
  induction start with
  | nil => rfl
  | cons c start ih => rw [List.cons_append, after?, if_pos rfl, ih]

lemma cut?_append_cons {sep : Char} {t : Text} (ht : sep ∉ t) (rest : Text) :
    cut? sep (t ++ sep :: rest) = some (t, rest) := by
  have hne : ∀ c ∈ t, (c != sep) = true := fun c hc => bne_iff_ne.2 (ne_of_mem_of_not_mem hc ht)
  rw [cut?, List.dropWhile_append_of_pos hne, List.takeWhile_append_of_pos hne]
  simp

lemma not_mem_ofNat (n : Nat) : '\n' ∉ ofNat n := fun h => by
  cases Nat.isDigit_of_mem_toDigits (by decide) (by decide) h

end FishScript.Text
