/-
# Positions point into lines

Lines are counted along the characters up to an offset, and the line that is shown is found again by
looking from the offset for line feeds on both sides. The two agree: the line that is counted is the
line that is shown, and the column says how much of it stands before the offset. Positions grow with
the offset, so no two places of a source share one (`positions_of_source`).
-/
import Mathlib
import FishScript.Proofs.Rules.Printing

namespace FishScript

/-! ## Pieces of a text -/

namespace Text

variable {sep : Char} {current t front rest : Text}

lemma getElem?_zero_piecesFrom (sep : Char) (current t : Text) :
    (piecesFrom sep current t)[0]? = some (current.reverse ++ t.takeWhile (· != sep)) := by
  induction t generalizing current with
  | nil => simp [piecesFrom]
  | cons c t ih =>
    rw [piecesFrom]
    split
    case isTrue hc => simp [hc]
    case isFalse hc =>
      rw [ih, List.takeWhile_cons_of_pos (by simpa using hc)]
      simp

lemma takeWhile_ne_append_cons (front rest : Text) :
    (front ++ sep :: rest).takeWhile (· != sep) = front.takeWhile (· != sep) := by
  induction front with
  | nil => simp
  | cons c front ih =>
    rw [List.cons_append, List.takeWhile_cons, List.takeWhile_cons, ih]

/-- As many separators as there are before a place, so many pieces are before the one around it. -/
lemma getElem?_count_piecesFrom (hcurrent : sep ∉ current) (front rest : Text) :
    (piecesFrom sep current (front ++ rest))[front.count sep]? =
      some (((front.reverse ++ current).takeWhile (· != sep)).reverse ++
        rest.takeWhile (· != sep)) := by
  induction front generalizing current with
  | nil =>
    have hall : ∀ d ∈ current, (d != sep) = true := fun d hd => by
      simpa using ne_of_mem_of_not_mem hd hcurrent
    rw [List.nil_append, List.count_nil, getElem?_zero_piecesFrom, List.reverse_nil,
      List.nil_append, List.takeWhile_eq_self_iff.2 hall]
  | cons c front ih =>
    rw [List.cons_append, piecesFrom, List.reverse_cons, List.append_assoc, List.singleton_append]
    split
    case isTrue hc =>
      subst hc
      rw [List.count_cons_self, List.getElem?_cons_succ, ih List.not_mem_nil, List.append_nil,
        takeWhile_ne_append_cons]
    case isFalse hc =>
      rw [List.count_cons_of_ne hc, ih (by simp [hcurrent, Ne.symm hc])]

end Text

/-! ## Counting -/

namespace Position

/-- Positions as pairs in lexicographic order, the line first. -/
def key (p : Position) : ℕ ×ₗ ℕ := toLex (p.line, p.column)

lemma advance_byteLength (p : Position) (front rest : Text) :
    advance (Text.byteLength front) p (front ++ rest) = front.foldl next p := by
  induction front generalizing p with
  | nil =>
    cases rest with
    | nil => rfl
    | cons c rest => rw [List.nil_append, advance, Text.byteLength_nil, if_pos rfl, List.foldl_nil]
  | cons c front ih =>
    have hpos : c.utf8Size + Text.byteLength front ≠ 0 := by
      have := c.utf8Size_pos
      omega
    rw [List.cons_append, advance, Text.byteLength_cons, if_neg hpos, Nat.add_sub_cancel_left, ih,
      List.foldl_cons]

/-- Along a text the line grows with its line feeds, and the column starts anew behind the last. -/
lemma foldl_next (p : Position) (front : Text) : front.foldl next p =
    ⟨p.line + front.count '\n', (if '\n' ∈ front then 1 else p.column) +
      (front.reverse.takeWhile (· != '\n')).length⟩ := by
  induction front using List.reverseRecOn with
  | nil => rfl
  | append_singleton front c ih =>
    rw [List.foldl_concat, ih, next]
    split
    case isTrue hc => simp [hc, Nat.add_assoc]
    case isFalse hc => simp [hc, Ne.symm hc, Nat.add_assoc]

lemma key_lt_next (p : Position) (c : Char) : p.key < (p.next c).key := by
  rw [next]
  split
  · exact Prod.Lex.toLex_lt_toLex.2 (.inl (Nat.lt_succ_self _))
  · exact Prod.Lex.toLex_lt_toLex.2 (.inr ⟨rfl, Nat.lt_succ_self _⟩)

lemma key_lt_foldl_next (p : Position) {t : Text} (ht : t ≠ []) :
    p.key < (t.foldl next p).key := by
  induction t using List.reverseRecOn with
  | nil => exact absurd rfl ht
  | append_singleton t c ih =>
    rw [List.foldl_concat]
    refine lt_of_le_of_lt ?_ (key_lt_next _ c)
    rcases t with _ | ⟨d, t⟩
    · exact le_rfl
    · exact (ih (List.cons_ne_nil d t)).le

end Position

namespace Span

lemma position_eq {s : Span} {front rest : Text} (h : s.start = front.byteLength) :
    s.position (front ++ rest) = front.foldl Position.next .first := by
  rw [position, h, Position.advance_byteLength]

lemma key_position_lt {source : Text} {s s' : Span} (hs : Text.isBoundary s.start source = true)
    (hs' : Text.isBoundary s'.start source = true) (hlt : s.start < s'.start) :
    (s.position source).key < (s'.position source).key := by
  obtain ⟨front, rest, rfl, hstart⟩ := Text.isBoundary_iff.1 hs
  obtain ⟨front', rest', heq, hstart'⟩ := Text.isBoundary_iff.1 hs'
  rw [hstart, hstart'] at hlt
  obtain ⟨piece, hne, rfl, -⟩ := Text.exists_eq_append_of_byteLength_lt heq hlt
  rw [position_eq hstart, heq, position_eq hstart', List.foldl_append]
  exact Position.key_lt_foldl_next _ hne

end Span

/-- At every place inside a source, the line that is shown is the one that the position counts, and
behind as many characters as the column counts it goes on with what stands there, up to the end of
the line. Positions grow strictly, in lexicographic order, from the start of the source to its end,
so they tell all places apart. -/
theorem positions_of_source (source : Text) :
    (∀ s : Span, Text.isBoundary s.start source = true → s.start < Text.byteLength source →
      ∃ line rest, contextLine s.start source = .ok (some line) ∧
        Text.skipBytes? s.start source = some rest ∧
        0 < (s.position source).line ∧ 0 < (s.position source).column ∧
        (Text.pieces '\n' source)[(s.position source).line - 1]? = some line ∧
        (s.position source).column - 1 ≤ line.length ∧
        line.drop ((s.position source).column - 1) = rest.takeWhile (· != '\n')) ∧
    (∀ s s' : Span, Text.isBoundary s.start source = true →
      Text.isBoundary s'.start source = true → s.start < s'.start →
        (s.position source).key < (s'.position source).key) ∧
    ∀ s s' : Span, Text.isBoundary s.start source = true →
      Text.isBoundary s'.start source = true → s.position source = s'.position source →
        s.start = s'.start := by
  refine ⟨fun s hs hlt => ?_, fun s s' => Span.key_position_lt, fun s s' hs hs' heq => ?_⟩
  · obtain ⟨front, rest, rfl, hstart⟩ := Text.isBoundary_iff.1 hs
    have hrest : rest ≠ [] := by
      rintro rfl
      rw [List.append_nil, ← hstart] at hlt
      exact Nat.lt_irrefl _ hlt
    have hcolumn : (if '\n' ∈ front then 1 else 1) = 1 := ite_self 1
    rw [Span.position_eq hstart, Position.foldl_next, hstart]
    refine ⟨_, rest, contextLine_eq hrest, Text.skipBytes?_byteLength front rest, ?_⟩
    simp only [Position.first, hcolumn, Nat.add_sub_cancel_left]
    refine ⟨by omega, by omega, ?_, ?_, ?_⟩
    · rw [Text.pieces, Text.getElem?_count_piecesFrom List.not_mem_nil, List.append_nil]
    · simp
    · rw [← List.length_reverse, List.drop_left]
  · rcases lt_trichotomy s.start s'.start with hlt | hstart | hlt
    · exact absurd (congrArg Position.key heq) (Span.key_position_lt hs hs' hlt).ne
    · exact hstart
    · exact absurd (congrArg Position.key heq) (Span.key_position_lt hs' hs hlt).ne'

/-- At the last character of a line of words of several bytes, which an empty line follows. -/
theorem positions_of_source_accented :
    let source := "é\nñ b\n\n".toList
    let s : Span := ⟨6, 7⟩
    Text.isBoundary s.start source = true ∧ s.start < Text.byteLength source ∧
      s.position source = ⟨2, 3⟩ ∧
      ∃ line rest, contextLine s.start source = .ok (some line) ∧
        Text.skipBytes? s.start source = some rest ∧ (Text.pieces '\n' source)[1]? = some line ∧
        line.drop 2 = rest.takeWhile (· != '\n') ∧
        (s.position source).key < ((Span.empty 9).position source).key := by
  intro source s
  have hboundary : Text.isBoundary s.start source = true := by decide
  have hlt : s.start < Text.byteLength source := by decide
  obtain ⟨hplace, hmono, -⟩ := positions_of_source source
  obtain ⟨line, rest, hline, hrest, -, -, hpiece, -, hdrop⟩ := hplace s hboundary hlt
  exact ⟨hboundary, hlt, by decide, line, rest, hline, hrest, hpiece, hdrop,
    hmono s (.empty 9) hboundary (by decide) (by decide)⟩

end FishScript
