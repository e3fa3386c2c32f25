/-
# Tokens are slices of the source

The text of a token stands in the source where the span of the token says. So a word that the
grammar tells apart by its text is found again at the leaf that stands for it, also behind the
nesting limit, which adds nothing but garbage (`reads_of_mem_limited`).
-/
import Mathlib
import FishScript.Grammar.Nesting

namespace FishScript

/-! ## Cutting a text between two of its parts -/

namespace Text

lemma skipBytes?_byteLength (s t : Text) : skipBytes? s.byteLength (s ++ t) = some t := by
  induction s with
  | nil => cases t <;> rfl
  | cons c s ih =>
    have hpos : 0 < c.utf8Size := Char.utf8Size_pos c
    obtain ⟨n, hn⟩ : ∃ n, c.utf8Size + byteLength s = n + 1 :=
      ⟨c.utf8Size + byteLength s - 1, by omega⟩
    have hrest : n + 1 - c.utf8Size = byteLength s := by omega
    rw [byteLength_cons, List.cons_append, hn, skipBytes?, if_pos (by omega), hrest, ih]

lemma takeBytes?_byteLength (s t : Text) : takeBytes? s.byteLength (s ++ t) = some s := by
  rw [takeBytes?, skipBytes?_byteLength, Option.map_some, List.length_append,
    Nat.add_sub_cancel, List.take_left]

lemma slice?_append (s m t : Text) :
    slice? s.byteLength (s.byteLength + m.byteLength) (s ++ m ++ t) = some m := by
  rw [slice?, if_neg (by omega), List.append_assoc, skipBytes?_byteLength, Option.bind_some,
    Nat.add_sub_cancel_left, takeBytes?_byteLength]

end Text

/-! ## Tokens -/

lemma mem_tokensFrom {tok : Token} : ∀ {t : Text} {pending offset : Nat},
    tok ∈ tokensFrom pending offset t →
      ∃ a b : Text, t = a ++ tok.text ++ b ∧ tok.start = offset + a.byteLength
  | [], _, _, h => by cases h
  | c :: t, n + 1, offset, h => by
    obtain ⟨a, b, rfl, hstart⟩ := mem_tokensFrom (t := t) h
    exact ⟨c :: a, b, by simp, by rw [hstart, Text.byteLength_cons, Nat.add_assoc]⟩
  | c :: t, 0, offset, h => by
    have hlater : tok ∈ tokensFrom ((munch (c :: t)).size - 1) (offset + c.utf8Size) t →
        ∃ a b : Text, c :: t = a ++ tok.text ++ b ∧ tok.start = offset + a.byteLength := by
      intro h
      obtain ⟨a, b, ht, hstart⟩ := mem_tokensFrom (t := t) h
      exact ⟨c :: a, b, by simp [← ht], by rw [hstart, Text.byteLength_cons, Nat.add_assoc]⟩
    rw [tokensFrom] at h
    split at h
    · rcases List.mem_cons.1 h with rfl | h
      · exact ⟨[], (c :: t).drop (munch (c :: t)).size, by simp, rfl⟩
      · exact hlater h
    · exact hlater h

/-- A token is the slice of its source between its ends. -/
theorem text?_of_mem_tokens {source : Text} {tok : Token} (h : tok ∈ tokens source) :
    tok.span.text? source = some tok.text := by
  obtain ⟨a, b, hsource, hstart⟩ := mem_tokensFrom h
  rw [Nat.zero_add] at hstart
  rw [Span.text?, Token.span, Token.stop, hstart, hsource]
  exact Text.slice?_append a tok.text b

/-! ## Reading on behind a token -/

lemma tokensFrom_skip : ∀ {x : Text} {n offset : Nat} {rest : Text}, x.length = n →
    tokensFrom n offset (x ++ rest) = tokensFrom 0 (offset + x.byteLength) rest
  | [], _, _, _, h => by
    obtain rfl := h
    rfl
  | c :: x, n, offset, rest, h => by
    obtain rfl := h
    rw [List.cons_append, List.length_cons, tokensFrom, tokensFrom_skip rfl, Text.byteLength_cons,
      Nat.add_assoc]

lemma tokensFrom_append {x rest : Text} {kind : TokenKind} (hne : x ≠ [])
    (h : munch (x ++ rest) = ⟨some kind, x.length⟩) (offset : Nat) :
    tokensFrom 0 offset (x ++ rest) =
      ⟨kind, x, offset⟩ :: tokensFrom 0 (offset + x.byteLength) rest := by
  rcases x with _ | ⟨c, x⟩
  · exact absurd rfl hne
  · rw [List.cons_append] at h ⊢
    rw [tokensFrom]
    simp only [h, List.length_cons, Nat.add_sub_cancel]
    rw [tokensFrom_skip rfl, Text.byteLength_cons, Nat.add_assoc, ← List.cons_append,
      ← List.length_cons, List.take_left]

/-! ## Terminals -/

/-- If the terminal is a word, the source holds it where the terminal stands. -/
def Terminal.Reads (source : Text) (t : Terminal) : Prop :=
  ∀ w, t.symbol = .word w → t.span.text? source = some w

lemma reads_of_mem_terminals {source : Text} {t : Terminal} (h : t ∈ terminals source) :
    t.Reads source := by
  obtain ⟨tok, htok, rfl⟩ := List.mem_map.1 h
  intro w hw
  have htext : tok.text = w := by
    simp only [Token.terminal, Token.symbol] at hw
    split at hw <;> cases hw
    rfl
  rw [← htext]
  exact text?_of_mem_tokens htok

lemma mem_limitFrom {t : Terminal} : ∀ {ts : List Terminal} {scan : NestingScan} {depth : Nat}
    {fold? : Option Fold}, t ∈ limitFrom scan depth fold? ts → t ∈ ts ∨ t.symbol = .garbage
  | [], scan, depth, none, h => by cases h
  | [], scan, depth, some fold, h => .inr (by rw [List.mem_singleton.1 h]; rfl)
  | u :: ts, scan, depth, fold?, h => by
    have hlater : ∀ {scan' depth' fold'}, t ∈ limitFrom scan' depth' fold' ts →
        t ∈ u :: ts ∨ t.symbol = .garbage :=
      fun h => (mem_limitFrom h).imp_left (List.mem_cons_of_mem u)
    have hhere : ∀ {scan' depth'}, t ∈ u :: limitFrom scan' depth' none ts →
        t ∈ u :: ts ∨ t.symbol = .garbage := by
      intro scan' depth' h
      rcases List.mem_cons.1 h with rfl | h
      · exact .inl (by simp)
      · exact hlater h
    unfold limitFrom at h
    split at h
    · simp only at h
      split at h
      · rcases List.mem_cons.1 h with rfl | h
        · exact .inr rfl
        · exact hlater h
      · exact hlater h
    · split at h
      · exact hlater h
      · exact hhere h
    · exact hhere h
    · exact hhere h

/-- The words that the grammar sees are read from the source. -/
theorem reads_of_mem_limited {source : Text} {t : Terminal}
    (h : t ∈ limitNesting (terminals source)) : t.Reads source := by
  rcases mem_limitFrom h with h | h
  · exact reads_of_mem_terminals h
  · intro w hw
    rw [h] at hw
    cases hw

end FishScript
