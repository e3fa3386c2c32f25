/-
# The patterns of tokens

What a token may be is said here by patterns, one for each kind of token, and two for what is
skipped. They are languages and know nothing of the machine that reads words. The machine accepts
exactly the texts of the pattern for words (`accepts_iff`): each of its states stands for the
language of what has been read when it is in that state. So the word it finds at the start of a
text is the longest there is.
-/
import Mathlib
import FishScript.Proofs.Token.Joining

namespace FishScript

open scoped Computability

/-! ## Languages -/

namespace Pattern

/-- One character with a property. -/
def oneOf (P : Char → Prop) : Language Char := {u | ∃ c, P c ∧ u = [c]}

/-- A text and nothing else. -/
def exactly (u : Text) : Language Char := {u}

/-- A character without a meaning of its own in a word. -/
def plain : Language Char :=
  oneOf fun c => Text.isBlank c = false ∧ c ∉ [';', '|', '&', '\'', '"', '\\']

/-- A backslash and any character that does not end the line. -/
def escaped : Language Char := exactly ['\\'] * oneOf (· ≠ '\n')

/-- A segment in single quotes. -/
def singleQuoted : Language Char := exactly ['\''] * (oneOf (· ≠ '\''))∗ * exactly ['\'']

/-- What a segment in double quotes consists of. -/
def doubleElement : Language Char := oneOf (fun c => c ≠ '"' ∧ c ≠ '\\') + escaped

/-- A segment in double quotes. -/
def doubleQuoted : Language Char := exactly ['"'] * doubleElement∗ * exactly ['"']

/-- The first piece of a word, which is no hash. -/
def head : Language Char :=
  oneOf (fun c => Text.isBlank c = false ∧ c ∉ [';', '|', '&', '#', '\'', '"', '\\'])
    + escaped + singleQuoted + doubleQuoted

/-- A further piece of a word. -/
def piece : Language Char :=
  plain + escaped + singleQuoted + doubleQuoted + exactly ['>', '&']

/-- A word. -/
def word : Language Char := head * piece∗

/-- A hash and the rest of the line. -/
def comment : Language Char := exactly ['#'] * (oneOf (· ≠ '\n'))∗

/-- Spaces and tabs, at least one. -/
def blanks : Language Char := oneOf (isSpace · = true) * (oneOf (isSpace · = true))∗

/-- A line that goes on in the next one. -/
def continuation : Language Char :=
  exactly ['\\'] * (1 + exactly ['\r']) * exactly ['\n']

/-- What is skipped. -/
def skipped : Language Char := blanks + continuation

end Pattern

namespace TokenKind

open Pattern

/-- The texts of the tokens of a kind. Nothing is expected to be unexpected. -/
def pattern : TokenKind → Language Char
  | .andAnd => exactly ['&', '&']
  | .orOr => exactly ['|', '|']
  | .pipe => exactly ['|']
  | .ampersand => exactly ['&']
  | .semicolon => exactly [';']
  | .newline => (1 + exactly ['\r']) * exactly ['\n']
  | .comment => Pattern.comment
  | .word => Pattern.word
  | .unexpected => 0

end TokenKind

/-- A pattern matches the text: that of a kind of token, or one of those for what is skipped. -/
def IsMatched (u : Text) : Prop := u ∈ Pattern.skipped ∨ ∃ kind : TokenKind, u ∈ kind.pattern

namespace Pattern

variable {P : Char → Prop} {u v w : Text} {c : Char} {L : Language Char}

@[simp] lemma mem_oneOf : u ∈ oneOf P ↔ ∃ c, P c ∧ u = [c] := Iff.rfl

@[simp] lemma mem_exactly : u ∈ exactly v ↔ u = v := Iff.rfl

lemma mem_oneOf_kstar : u ∈ (oneOf P)∗ ↔ ∀ c ∈ u, P c := by
  rw [Language.mem_kstar]
  constructor
  · rintro ⟨us, rfl, hus⟩ c hc
    obtain ⟨v, hv, hcv⟩ := List.mem_flatten.1 hc
    obtain ⟨d, hd, rfl⟩ := hus v hv
    obtain rfl := List.mem_singleton.1 hcv
    exact hd
  · intro h
    refine ⟨u.map fun c => [c], ?_, fun v hv => ?_⟩
    · rw [← List.flatMap_def, List.flatMap_singleton']
    · obtain ⟨c, hc, rfl⟩ := List.mem_map.1 hv
      exact ⟨c, h c hc, rfl⟩

lemma nil_mem_kstar : [] ∈ L∗ := Language.nil_mem_kstar L

lemma append_mem_kstar (hu : u ∈ L∗) (hv : v ∈ L) : u ++ v ∈ L∗ :=
  (kstar_mul_le_kstar : L∗ * L ≤ L∗) (Language.append_mem_mul hu hv)

/-! ## Words grow by pieces -/

lemma mem_escaped (hc : c ≠ '\n') : ['\\', c] ∈ escaped :=
  Language.append_mem_mul (mem_exactly.2 rfl) (mem_oneOf.2 ⟨c, hc, rfl⟩)

lemma word_of_head (hu : u ∈ head) : u ∈ word := by
  have h : u ++ [] ∈ word := Language.append_mem_mul hu nil_mem_kstar
  rwa [List.append_nil] at h

lemma word_append (hu : u ∈ word) (hv : v ∈ piece) : u ++ v ∈ word := by
  obtain ⟨x, hx, y, hy, rfl⟩ := Language.mem_mul.1 hu
  rw [List.append_assoc]
  exact Language.append_mem_mul hx (append_mem_kstar hy hv)

lemma ne_nil_of_mem_word (hu : u ∈ word) : u ≠ [] := by
  rintro rfl
  obtain ⟨x, hx, y, -, hxy⟩ := Language.mem_mul.1 hu
  obtain ⟨rfl, -⟩ := List.append_eq_nil_iff.1 hxy
  rcases hx with ((⟨d, -, hd⟩ | hx) | hx) | hx
  · cases hd
  · obtain ⟨a, rfl, b, -, hab⟩ := Language.mem_mul.1 hx
    cases hab
  · obtain ⟨a, -, b, rfl, hab⟩ := Language.mem_mul.1 hx
    simp at hab
  · obtain ⟨a, -, b, rfl, hab⟩ := Language.mem_mul.1 hx
    simp at hab

/-- What may stand before a piece that may also be the first. -/
def Starts (u : Text) : Prop := u = [] ∨ u ∈ word

/-- A piece that may also be the first makes a word of what stands before it. -/
lemma Starts.append (hu : Starts u) (hv : v ∈ escaped + singleQuoted + doubleQuoted) :
    u ++ v ∈ word := by
  rcases hu with rfl | hu
  · refine word_of_head ?_
    rcases hv with (hv | hv) | hv
    · exact .inl (.inl (.inr hv))
    · exact .inl (.inr hv)
    · exact .inr hv
  · refine word_append hu ?_
    rcases hv with (hv | hv) | hv
    · exact .inl (.inl (.inl (.inr hv)))
    · exact .inl (.inl (.inr hv))
    · exact .inl (.inr hv)

end Pattern

/-! ## What the machine has read -/

namespace WordState

open Pattern

/-- What may have been read when the machine is in a state. -/
def Read : WordState → Text → Prop
  | .start, u => u = []
  | .bare angle, u => u ∈ word ∧ (angle = true → ∃ v ∈ word, u = v ++ ['>'])
  | .escape, u => ∃ v, Starts v ∧ u = v ++ ['\\']
  | .single, u => ∃ v w, Starts v ∧ (∀ c ∈ w, c ≠ '\'') ∧ u = v ++ '\'' :: w
  | .double, u => ∃ v, ∃ w ∈ doubleElement∗, Starts v ∧ u = v ++ '"' :: w
  | .doubleEscape, u => ∃ v, ∃ w ∈ doubleElement∗, Starts v ∧ u = v ++ '"' :: w ++ ['\\']

variable {s s' : WordState} {u v w : Text} {c : Char} {angle : Bool}

lemma isSpecial_eq_false_iff :
    isSpecial c = false ↔ Text.isBlank c = false ∧ c ≠ ';' ∧ c ≠ '|' ∧ c ≠ '&' := by
  simp [isSpecial, and_assoc]

/-- What a character that begins a piece makes of what was read before it. -/
lemma read_of_piece? (hu : Starts u) (hstart : u = [] → c ≠ '#')
    (h : piece? c false = some s') : s'.Read (u ++ [c]) := by
  unfold piece? at h
  split at h
  case isTrue hc =>
    obtain rfl := Option.some_inj.1 h
    subst hc
    exact ⟨u, [], hu, by simp, rfl⟩
  case isFalse hsingle =>
  split at h
  case isTrue hc =>
    obtain rfl := Option.some_inj.1 h
    subst hc
    exact ⟨u, [], nil_mem_kstar, hu, rfl⟩
  case isFalse hdouble =>
  split at h
  case isTrue hc =>
    obtain rfl := Option.some_inj.1 h
    subst hc
    exact ⟨u, hu, rfl⟩
  case isFalse hescape =>
  split at h
  case isTrue => cases h
  case isFalse hspecial =>
    -- a plain character is a piece in itself, and the first one if it is no hash
    obtain rfl := Option.some_inj.1 h
    rw [Bool.not_eq_true, isSpecial_eq_false_iff] at hspecial
    obtain ⟨hblank, hsemicolon, hbar, hand⟩ := hspecial
    refine ⟨?_, fun hangle => by cases hangle⟩
    rcases hu with rfl | hu
    · exact word_of_head (.inl (.inl (.inl ⟨c, ⟨hblank, by simp [*]⟩, rfl⟩)))
    · exact word_append hu (.inl (.inl (.inl (.inl ⟨c, ⟨hblank, by simp [*]⟩, rfl⟩))))

/-- Between pieces a character begins one, and an ampersand ends the one that an angle bracket
began. -/
lemma read_next_bare (hu : (bare angle).Read u) (h : (bare angle).next? c = some s') :
    s'.Read (u ++ [c]) := by
  obtain ⟨hword, hangle⟩ := hu
  rw [next?] at h
  split at h
  case isTrue hc =>
    obtain rfl := Option.some_inj.1 h
    subst hc
    -- whether an ampersand follows is not known yet
    have hplain : ['>'] ∈ plain := ⟨'>', by decide, rfl⟩
    exact ⟨word_append hword (.inl (.inl (.inl (.inl hplain)))), fun _ => ⟨u, hword, rfl⟩⟩
  case isFalse =>
  split at h
  case isTrue hc =>
    subst hc
    split at h
    case isTrue htrue =>
      obtain rfl := Option.some_inj.1 h
      obtain ⟨v, hv, rfl⟩ := hangle htrue
      refine ⟨?_, fun h => by cases h⟩
      rw [List.append_assoc]
      exact word_append hv (.inr rfl)
    case isFalse => cases h
  case isFalse =>
    exact read_of_piece? (.inr hword) (fun hnil => absurd hnil (ne_nil_of_mem_word hword)) h

lemma read_next (hu : s.Read u) (h : s.next? c = some s') : s'.Read (u ++ [c]) := by
  cases s with
  | start =>
    obtain rfl : u = [] := hu
    rw [next?] at h
    split at h
    · cases h
    · rename_i hhash
      exact read_of_piece? (.inl rfl) (fun _ => hhash) h
  | bare angle => exact read_next_bare hu h
  | escape =>
    obtain ⟨v, hv, rfl⟩ := hu
    rw [next?] at h
    split at h
    · cases h
    · rename_i hc
      obtain rfl := Option.some_inj.1 h
      refine ⟨?_, fun h => by cases h⟩
      rw [List.append_assoc]
      exact hv.append (.inl (.inl (mem_escaped hc)))
  | single =>
    obtain ⟨v, w, hv, hw, rfl⟩ := hu
    rw [next?, Option.some_inj] at h
    subst h
    split
    · rename_i hc
      subst hc
      refine ⟨?_, fun h => by cases h⟩
      rw [List.append_assoc]
      refine hv.append (.inl (.inr ?_))
      exact Language.append_mem_mul
        (Language.append_mem_mul (mem_exactly.2 rfl) (mem_oneOf_kstar.2 hw)) (mem_exactly.2 rfl)
    · rename_i hc
      refine ⟨v, w ++ [c], hv, fun d hd => ?_, by simp⟩
      rcases List.mem_append.1 hd with hd | hd
      · exact hw d hd
      · rwa [List.mem_singleton.1 hd]
  | double =>
    obtain ⟨v, w, hw, hv, rfl⟩ := hu
    rw [next?, Option.some_inj] at h
    subst h
    split
    · rename_i hc
      subst hc
      refine ⟨?_, fun h => by cases h⟩
      rw [List.append_assoc]
      refine hv.append (.inr ?_)
      exact Language.append_mem_mul
        (Language.append_mem_mul (mem_exactly.2 rfl) hw) (mem_exactly.2 rfl)
    · rename_i hquote
      split
      · rename_i hc
        subst hc
        exact ⟨v, w, hw, hv, rfl⟩
      · rename_i hescape
        exact ⟨v, w ++ [c], append_mem_kstar hw (.inl ⟨c, ⟨hquote, hescape⟩, rfl⟩), hv, by simp⟩
  | doubleEscape =>
    obtain ⟨v, w, hw, hv, rfl⟩ := hu
    rw [next?] at h
    split at h
    · cases h
    · rename_i hc
      obtain rfl := Option.some_inj.1 h
      exact ⟨v, w ++ ['\\', c], append_mem_kstar hw (.inr (mem_escaped hc)), hv, by simp⟩

lemma read_of_run? : ∀ {u : Text} {s : WordState}, WordState.start.run? u = some s → s.Read u := by
  intro u
  induction u using List.reverseRecOn with
  | nil =>
    rintro s ⟨⟩
    exact rfl
  | append_singleton u c ih =>
    intro s h
    obtain ⟨s₁, hs₁, hnext⟩ := exists_of_run?_concat h
    exact read_next (ih hs₁) hnext

/-! ## What the machine accepts -/

/-- A text leads from the state to one in which the word is complete. -/
def Accepts (s : WordState) (u : Text) : Prop := ∃ s', s.run? u = some s' ∧ s'.isComplete = true

lemma isComplete_iff : s.isComplete = true ↔ ∃ angle, s = .bare angle := by
  cases s <;> simp [isComplete]

lemma run?_single_segment (hw : ∀ c ∈ w, c ≠ '\'') :
    WordState.single.run? (w ++ ['\'']) = some (.bare false) := by
  induction w with
  | nil => rfl
  | cons c w ih =>
    obtain ⟨hc, hw⟩ := List.forall_mem_cons.1 hw
    rw [List.cons_append, run?, next?, if_neg hc]
    exact ih hw

lemma run?_doubleElement (hw : w ∈ doubleElement) : WordState.double.run? w = some .double := by
  rcases hw with ⟨c, ⟨hquote, hescape⟩, rfl⟩ | hw
  · simp [run?, next?, hquote, hescape]
  · obtain ⟨a, rfl, b, ⟨c, hc, rfl⟩, rfl⟩ := Language.mem_mul.1 hw
    simp [run?, next?, hc]

lemma run?_double_segment (hw : w ∈ doubleElement∗) :
    WordState.double.run? (w ++ ['"']) = some (.bare false) := by
  obtain ⟨ws, rfl, hws⟩ := Language.mem_kstar.1 hw
  induction ws with
  | nil => rfl
  | cons v ws ih =>
    obtain ⟨hv, hws⟩ := List.forall_mem_cons.1 hws
    rw [List.flatten_cons, List.append_assoc, run?_append, run?_doubleElement hv]
    exact ih hws (Language.mem_kstar.2 ⟨ws, rfl, hws⟩)

lemma run?_of_piece? (hs : ∀ c, c = '\'' ∨ c = '"' ∨ c = '\\' → s.next? c = piece? c false)
    (hu : u ∈ escaped + singleQuoted + doubleQuoted) : s.run? u = some (.bare false) := by
  rcases hu with (hu | hu) | hu
  · obtain ⟨a, rfl, b, ⟨c, hc, rfl⟩, rfl⟩ := Language.mem_mul.1 hu
    rw [List.singleton_append, run?, hs '\\' (by simp)]
    simp [piece?, run?, next?, hc]
  · obtain ⟨a, ha, b, rfl, rfl⟩ := Language.mem_mul.1 hu
    obtain ⟨d, rfl, w, hw, rfl⟩ := Language.mem_mul.1 ha
    rw [List.singleton_append, List.cons_append, run?, hs '\'' (by simp)]
    exact run?_single_segment (mem_oneOf_kstar.1 hw)
  · obtain ⟨a, ha, b, rfl, rfl⟩ := Language.mem_mul.1 hu
    obtain ⟨d, rfl, w, hw, rfl⟩ := Language.mem_mul.1 ha
    rw [List.singleton_append, List.cons_append, run?, hs '"' (by simp)]
    exact run?_double_segment hw

lemma piece?_plain (h : Text.isBlank c = false) (hc : c ∉ [';', '|', '&', '\'', '"', '\\']) :
    piece? c angle = some (.bare angle) := by
  simp only [List.mem_cons, List.not_mem_nil, or_false, not_or] at hc
  obtain ⟨hsemicolon, hbar, hand, hsingle, hdouble, hescape⟩ := hc
  have hspecial : isSpecial c = false := isSpecial_eq_false_iff.2 ⟨h, hsemicolon, hbar, hand⟩
  rw [piece?, if_neg hsingle, if_neg hdouble, if_neg hescape, hspecial]
  rfl

lemma exists_run?_head (hu : u ∈ head) : ∃ angle, WordState.start.run? u = some (.bare angle) := by
  have hquote : ∀ c, c = '\'' ∨ c = '"' ∨ c = '\\' → WordState.start.next? c = piece? c false := by
    rintro c (rfl | rfl | rfl) <;> rfl
  rcases hu with ((⟨c, ⟨hblank, hc⟩, rfl⟩ | hu) | hu) | hu
  · simp only [List.mem_cons, List.not_mem_nil, or_false, not_or] at hc
    obtain ⟨hsemicolon, hbar, hand, hhash, hsingle, hdouble, hescape⟩ := hc
    refine ⟨false, ?_⟩
    rw [run?, next?, if_neg hhash, piece?_plain hblank (by simp [*])]
    rfl
  · exact ⟨false, run?_of_piece? hquote (.inl (.inl hu))⟩
  · exact ⟨false, run?_of_piece? hquote (.inl (.inr hu))⟩
  · exact ⟨false, run?_of_piece? hquote (.inr hu)⟩

lemma exists_run?_piece (angle : Bool) (hu : u ∈ piece) :
    ∃ angle', (WordState.bare angle).run? u = some (.bare angle') := by
  have hquote : ∀ c, c = '\'' ∨ c = '"' ∨ c = '\\' →
      (WordState.bare angle).next? c = piece? c false := by
    rintro c (rfl | rfl | rfl) <;> rfl
  rcases hu with (((⟨c, ⟨hblank, hc⟩, rfl⟩ | hu) | hu) | hu) | hu
  · by_cases hangle : c = '>'
    · subst hangle
      exact ⟨true, rfl⟩
    · have hand : c ≠ '&' := by
        rintro rfl
        simp at hc
      refine ⟨false, ?_⟩
      rw [run?, next?, if_neg hangle, if_neg hand, piece?_plain hblank hc]
      rfl
  · exact ⟨false, run?_of_piece? hquote (.inl (.inl hu))⟩
  · exact ⟨false, run?_of_piece? hquote (.inl (.inr hu))⟩
  · exact ⟨false, run?_of_piece? hquote (.inr hu)⟩
  · obtain rfl : u = ['>', '&'] := hu
    exact ⟨false, rfl⟩

lemma exists_run?_pieces (us : List Text) (hus : ∀ u ∈ us, u ∈ piece) (angle : Bool) :
    ∃ angle', (WordState.bare angle).run? us.flatten = some (.bare angle') := by
  induction us generalizing angle with
  | nil => exact ⟨angle, rfl⟩
  | cons u us ih =>
    obtain ⟨hu, hus⟩ := List.forall_mem_cons.1 hus
    obtain ⟨angle', hrun⟩ := exists_run?_piece angle hu
    rw [List.flatten_cons, run?_append, hrun]
    exact ih hus angle'

/-- The machine accepts exactly the words. -/
theorem accepts_iff : WordState.start.Accepts u ↔ u ∈ word := by
  constructor
  · rintro ⟨s, hrun, hs⟩
    obtain ⟨angle, rfl⟩ := isComplete_iff.1 hs
    exact (read_of_run? hrun).1
  · intro hu
    obtain ⟨x, hx, y, hy, rfl⟩ := Language.mem_mul.1 hu
    obtain ⟨us, rfl, hus⟩ := Language.mem_kstar.1 hy
    obtain ⟨angle, hhead⟩ := exists_run?_head hx
    obtain ⟨angle', hpieces⟩ := exists_run?_pieces us hus angle
    refine ⟨.bare angle', ?_, rfl⟩
    rw [run?_append, hhead]
    exact hpieces

end WordState

/-! ## The longest word -/

section Extent

variable {s : WordState} {t u : Text} {matched reached : Nat}

lemma le_matched (h : matched ≤ reached) :
    matched ≤ (wordExtentFrom s matched reached t).matched := by
  induction t generalizing s matched reached with
  | nil => exact Nat.le_refl _
  | cons c t ih =>
    rw [wordExtentFrom]
    split
    · exact Nat.le_refl _
    · split
      · have hle := @ih ‹_› (reached + 1) (reached + 1) (Nat.le_refl _)
        omega
      · exact ih (by omega)

lemma length_le_matched_of_accepts (hmatched : matched ≤ reached) (hu : u <+: t) (hne : u ≠ [])
    (h : s.Accepts u) : reached + u.length ≤ (wordExtentFrom s matched reached t).matched := by
  obtain ⟨s', hrun, hs'⟩ := h
  induction u generalizing s t matched reached with
  | nil => exact absurd rfl hne
  | cons c u ih =>
    obtain ⟨rest, rfl⟩ := hu
    rw [WordState.run?] at hrun
    obtain ⟨s₁, hnext, hrun⟩ := Option.bind_eq_some_iff.1 hrun
    rw [List.cons_append, wordExtentFrom, hnext, List.length_cons]
    dsimp only
    by_cases hu : u = []
    · subst hu
      obtain rfl := Option.some_inj.1 hrun
      rw [if_pos hs']
      exact le_matched (Nat.le_refl _)
    · have hle : (if s₁.isComplete then reached + 1 else matched) ≤ reached + 1 := by
        split <;> omega
      have := ih hle (List.prefix_append u rest) hu hrun
      omega

lemma accepts_of_matched : (wordExtentFrom s matched reached t).matched = matched ∨
    ∃ u, u ≠ [] ∧ u <+: t ∧ (wordExtentFrom s matched reached t).matched = reached + u.length ∧
      s.Accepts u := by
  induction t generalizing s matched reached with
  | nil => exact .inl rfl
  | cons c t ih =>
    rw [wordExtentFrom]
    split
    · exact .inl rfl
    · rename_i s₁ hnext
      have hone : s₁.isComplete = true → s.Accepts [c] := fun hs₁ =>
        ⟨s₁, by rw [WordState.run?, hnext]; rfl, hs₁⟩
      obtain h | ⟨u, hne, hstart, hlength, s', hrun, hs'⟩ := @ih s₁
        (if s₁.isComplete then reached + 1 else matched) (reached + 1)
      · by_cases hs₁ : s₁.isComplete = true
        · rw [if_pos hs₁] at h ⊢
          exact .inr ⟨[c], List.cons_ne_nil _ _, by simp, h, hone hs₁⟩
        · rw [if_neg hs₁] at h ⊢
          exact .inl h
      · refine .inr ⟨c :: u, List.cons_ne_nil _ _, by simpa using hstart, ?_, s', ?_, hs'⟩
        · rw [hlength, List.length_cons]
          omega
        · rw [WordState.run?, hnext]
          exact hrun

end Extent

open Pattern

/-- At the start of a text stands the longest word there is, or none. -/
theorem munchWord_spec (t : Text) :
    (∀ u, u <+: t → u ≠ [] → u ∉ word) ∧ (munchWord t).kind? = some .unexpected ∨
      t.take (munchWord t).size ∈ word ∧ (∀ u, u <+: t → u ∈ word → u.length ≤ (munchWord t).size) ∧
        (munchWord t).kind? = some .word := by
  have hmax : ∀ u, u <+: t → u ≠ [] → u ∈ word → u.length ≤ (wordExtent t).matched := by
    intro u hstart hne hu
    have hle := length_le_matched_of_accepts (Nat.le_refl 0) hstart hne (WordState.accepts_iff.2 hu)
    rwa [Nat.zero_add] at hle
  rw [munchWord]
  by_cases h : (wordExtent t).matched = 0
  · left
    rw [if_pos h]
    refine ⟨fun u hstart hne hu => ?_, rfl⟩
    have hle := hmax u hstart hne hu
    rw [h, Nat.le_zero] at hle
    exact hne (List.length_eq_zero_iff.1 hle)
  · right
    rw [if_neg h]
    refine ⟨?_, fun u hstart hu => ?_, rfl⟩
    · obtain hzero | ⟨u, -, hstart, hlength, haccepts⟩ := @accepts_of_matched .start t 0 0
      · exact absurd hzero h
      · rw [Nat.zero_add] at hlength
        rw [wordExtent, hlength, ← List.prefix_iff_eq_take.1 hstart]
        exact WordState.accepts_iff.1 haccepts
    · by_cases hne : u = []
      · subst hne
        exact Nat.zero_le _
      · exact hmax u hstart hne hu

end FishScript
