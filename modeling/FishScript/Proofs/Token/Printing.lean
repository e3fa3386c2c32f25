/-
# Printed tokens are read again

Tokens that are printed one after the other, with a space between neighbours, are read as what
they are (`tokens_printed`). A space ends every token: it is no part of a sign, and where a word is
complete the word does not go on with it. A comment goes on to the end of its line, so behind it
stands a line feed, and no space is printed there.
-/
import Mathlib
import FishScript.Proofs.Token.Appending
import FishScript.Proofs.Token.Lines
import FishScript.Proofs.Token.Munching

namespace FishScript

/-! ## Words between other tokens -/

/-- The text does not go on with a character that a word or a sign could take in. -/
def Stops (t : Text) : Prop := ∀ c, t.head? = some c → c = ' ' ∨ c = '\n'

lemma WordState.next?_of_isComplete {s : WordState} (hs : s.isComplete = true) {c : Char}
    (hc : c = ' ' ∨ c = '\n') : s.next? c = none := by
  cases s with
  | bare angle => obtain rfl | rfl := hc <;> cases angle <;> decide
  | _ => cases hs

lemma wordExtentFrom_of_stops {s : WordState} (hs : s.isComplete = true) {rest : Text}
    (hrest : Stops rest) (matched reached : Nat) :
    wordExtentFrom s matched reached rest = ⟨matched, reached⟩ := by
  cases rest with
  | nil => rfl
  | cons c rest => rw [wordExtentFrom, WordState.next?_of_isComplete hs (hrest c rfl)]

lemma wordExtentFrom_append {rest : Text} (hrest : Stops rest) : ∀ {w : Text} {s : WordState}
    {matched reached : Nat}, matched ≤ reached → w ≠ [] →
      reached + w.length ≤ (wordExtentFrom s matched reached w).matched →
        (wordExtentFrom s matched reached (w ++ rest)).matched = reached + w.length
  | [], _, _, _, _, hne, _ => absurd rfl hne
  | c :: w, s, matched, reached, hle, _, h => by
    rw [List.cons_append, wordExtentFrom]
    rw [wordExtentFrom] at h
    cases hs : s.next? c with
    | none =>
      rw [hs] at h
      simp only [List.length_cons] at h
      omega
    | some s' =>
      rw [hs] at h
      simp only [List.length_cons] at h ⊢
      rcases w with _ | ⟨d, w⟩
      · -- the last character has to complete the word
        by_cases hcomplete : s'.isComplete = true
        · simp [hcomplete, wordExtentFrom_of_stops hcomplete hrest]
        · simp only [hcomplete, wordExtentFrom, List.length_nil] at h
          have hle' : reached + (0 + 1) ≤ matched := h
          omega
      · have hmatched : (if s'.isComplete then reached + 1 else matched) ≤ reached + 1 := by
          split <;> omega
        have hlength : reached + ((d :: w).length + 1) = reached + 1 + (d :: w).length := by omega
        rw [hlength] at h ⊢
        exact wordExtentFrom_append hrest hmatched (List.cons_ne_nil d w) h

lemma munchWord_append {w rest : Text} (hw : w ≠ []) (hrest : Stops rest)
    (h : w.length ≤ (wordExtent w).matched) : munchWord (w ++ rest) = ⟨some .word, w.length⟩ := by
  have hmatched : (wordExtent (w ++ rest)).matched = w.length := by
    rw [wordExtent, wordExtentFrom_append hrest (le_refl 0) hw (by rwa [Nat.zero_add]),
      Nat.zero_add]
  have hlength : w.length ≠ 0 := by simpa using hw
  rw [munchWord, hmatched, if_neg hlength]

lemma tokensFrom_space {rest : Text} (h : ∀ c, rest.head? = some c → isSpace c = false)
    (offset : Nat) :
    tokensFrom 0 offset (' ' :: rest) = tokensFrom 0 (offset + Text.byteLength [' ']) rest := by
  have hmunch : munch (' ' :: rest) = ⟨none, 1⟩ := by
    rcases rest with _ | ⟨c, rest⟩
    · rfl
    · have hc := h c rfl
      have hmunch : munch (' ' :: c :: rest) = ⟨none, 1 + ((c :: rest).takeWhile isSpace).length⟩ :=
        rfl
      rw [hmunch, List.takeWhile_cons, hc]
      rfl
  rw [tokensFrom]
  simp only [hmunch]
  rfl

/-! ## Printing -/

/-- A kind of token with a text that is read, by itself, as one token of this kind. -/
structure Spelling where
  /-- The kind. -/
  kind : TokenKind
  /-- The text. -/
  text : Text
  /-- The token is recognised. -/
  expected : kind ≠ .unexpected
  /-- The text is the whole token. -/
  alone : tokens text = [⟨kind, text, 0⟩]

namespace Spelling

/-- A word. -/
def word (text : Text) (alone : tokens text = [⟨.word, text, 0⟩]) : Spelling :=
  ⟨.word, text, TokenKind.noConfusion, alone⟩

@[simp] lemma kind_word {text : Text} (alone : tokens text = [⟨.word, text, 0⟩]) :
    (word text alone).kind = .word := rfl

/-- What is printed between a token and the tokens behind it. -/
def gap (x : Spelling) (rest : List Spelling) : Text :=
  if rest.isEmpty || x.kind == .comment then [] else [' ']

/-- Tokens printed one after the other, with a space between neighbours except behind comments. -/
def printed : List Spelling → Text
  | [] => []
  | x :: rest => x.text ++ (x.gap rest ++ printed rest)

/-- The tokens where they are printed, from an offset on. -/
def placed (offset : Nat) : List Spelling → List Token
  | [] => []
  | x :: rest =>
    ⟨x.kind, x.text, offset⟩ ::
      placed (offset + x.text.byteLength + (x.gap rest).byteLength) rest

/-- Behind a comment its line ends, with a line feed alone. -/
def Precedes (x next : Spelling) : Prop :=
  x.kind = .comment → next.kind = .newline ∧ next.text = ['\n']

/-! ## One token -/

variable {x next : Spelling} {xs : List Spelling} {rest : Text}

lemma text_ne_nil (x : Spelling) : x.text ≠ [] := by
  intro h
  have halone := x.alone
  rw [h] at halone
  cases halone

lemma munch_text (x : Spelling) : munch x.text = ⟨some x.kind, x.text.length⟩ := by
  have hne := x.text_ne_nil
  have halone : tokensFrom 0 0 x.text = [⟨x.kind, x.text, 0⟩] := x.alone
  rw [tokensFrom_munch hne] at halone
  cases hkind : (munch x.text).kind? with
  | none =>
    -- what is skipped would stand before the token
    exfalso
    have hmem : (⟨x.kind, x.text, 0⟩ : Token) ∈
        tokensFrom 0 (0 + Text.byteLength (x.text.take (munch x.text).size))
          (x.text.drop (munch x.text).size) := by
      rw [hkind, Option.map_none, Option.toList_none, List.nil_append] at halone
      rw [halone]
      exact List.mem_singleton_self _
    have hstart := (inOrder_tokensFrom _ _ _).2 _ hmem
    have htake : x.text.take (munch x.text).size ≠ [] := by
      rw [Ne, List.take_eq_nil_iff, not_or]
      exact ⟨(munch_size_pos hne).ne', hne⟩
    have hpos := byteLength_pos htake
    simp only [List.take_zero, Text.byteLength_nil] at hstart
    omega
  | some kind =>
    rw [hkind] at halone
    obtain ⟨hfirst, -⟩ := List.cons.inj halone
    obtain ⟨rfl, htext, -⟩ := Token.mk.inj hfirst
    have hlength := congrArg List.length htext
    have hle := munch_size_le hne
    rw [List.length_take, min_eq_left hle] at hlength
    rw [← hkind, ← hlength]

lemma head_not_space (x : Spelling) (rest : Text) :
    ∀ c, (x.text ++ rest).head? = some c → isSpace c = false := by
  intro c hc
  rw [List.head?_append_of_ne_nil _ x.text_ne_nil] at hc
  obtain ⟨t, ht⟩ := List.head?_eq_some_iff.1 hc
  have hmunch := x.munch_text
  rw [ht] at hmunch
  by_contra hspace
  obtain rfl | rfl : c = ' ' ∨ c = '\t' := by
    rw [Bool.not_eq_false] at hspace
    simpa [isSpace] using hspace
  · cases hmunch
  · cases hmunch

/-- Behind a token stands nothing, a space or the end of a line. A comment goes on with a space, and
a carriage return at the end of another token would belong to the end of the line. -/
def Before (x : Spelling) (rest : Text) : Prop :=
  ∀ c, rest.head? = some c → c = ' ' ∧ x.kind ≠ .comment ∨
    c = '\n' ∧ (x.kind = .comment ∨ x.text.getLast? ≠ some '\r')

lemma munch_comment_append (hcomment : x.kind = .comment) (h : x.Before rest) :
    munch (x.text ++ rest) = ⟨some .comment, x.text.length⟩ := by
  have hmunch := x.munch_text
  rw [hcomment] at hmunch
  obtain ⟨u, hu, hsize⟩ := munch_comment (congrArg Munch.kind? hmunch)
  have hall : u.takeWhile (· != '\n') = u := by
    refine (List.takeWhile_prefix _).eq_of_length ?_
    have hlength : x.text.length = 1 + (u.takeWhile (· != '\n')).length :=
      (congrArg Munch.size hmunch).symm.trans hsize
    rw [hu, List.length_cons] at hlength
    omega
  rw [hu]
  refine munch_hash (by simpa using List.takeWhile_eq_self_iff.1 hall) fun c hc => ?_
  obtain ⟨-, hne⟩ | ⟨hfeed, -⟩ := h c hc
  · exact absurd hcomment hne
  · exact hfeed

lemma length_le_matched (hword : x.kind = .word) :
    x.text.length ≤ (wordExtent x.text).matched := by
  have haccepts : WordState.start.Accepts x.text := by
    refine WordState.accepts_iff.2 ?_
    have hlongest := (munch_longest x.text_ne_nil).matched .word (by rw [x.munch_text, hword])
      (by decide)
    rwa [x.munch_text, List.take_length] at hlongest
  have hle := length_le_matched_of_accepts (Nat.le_refl 0) (List.prefix_refl x.text) x.text_ne_nil
    haccepts
  rwa [Nat.zero_add] at hle

lemma kind_of_munchWord (h : munch x.text = munchWord x.text) : x.kind = .word := by
  rw [x.munch_text, munchWord] at h
  split at h
  · exact absurd (Option.some_inj.1 (congrArg Munch.kind? h)) x.expected
  · exact Option.some_inj.1 (congrArg Munch.kind? h)

lemma munch_append (h : x.Before rest) :
    munch (x.text ++ rest) = ⟨some x.kind, x.text.length⟩ := by
  have hmunch := x.munch_text
  by_cases hcomment : x.kind = .comment
  · rw [munch_comment_append hcomment h, hcomment]
  · have hstops : ∀ c, rest.head? = some c → c = ' ' ∨ c = '\n' ∧ x.text.getLast? ≠ some '\r' := by
      intro c hc
      exact (h c hc).imp And.left (And.imp_right (Or.resolve_left · hcomment))
    rw [← hmunch]
    refine FishScript.munch_append x.text_ne_nil ?_ ?_ ?_ ?_ ?_ ?_
    · intro htext
      rw [htext] at hmunch
      exact x.expected (Option.some_inj.1 (congrArg Munch.kind? hmunch)).symm
    · rintro c - (rfl | rfl) hc
      · exact absurd (hstops _ hc) (by simp)
      · exact absurd (hstops _ hc) (by simp)
    · intro hreturn hc
      obtain hc | ⟨-, hlast⟩ := hstops _ hc
      · cases hc
      · exact hlast hreturn
    · -- the text begins with something else
      obtain ⟨c, t, ht⟩ := List.exists_cons_of_ne_nil x.text_ne_nil
      have hc := x.head_not_space [] c (by rw [ht]; rfl)
      rw [ht, List.cons_append, List.takeWhile_cons, List.takeWhile_cons, hc]
      rfl
    · intro hhash
      obtain ⟨t, ht⟩ := List.head?_eq_some_iff.1 hhash
      rw [ht] at hmunch
      exact absurd (Option.some_inj.1 (congrArg Munch.kind? hmunch)).symm hcomment
    · intro hword
      have hkind := kind_of_munchWord hword
      rw [munchWord_append x.text_ne_nil (fun c hc => (hstops c hc).imp_right And.left)
        (length_le_matched hkind), ← hword, hmunch, hkind]

/-! ## All tokens -/

lemma head?_printed_cons (x : Spelling) (xs : List Spelling) :
    (printed (x :: xs)).head? = x.text.head? := by
  rw [printed, List.head?_append_of_ne_nil _ x.text_ne_nil]

/-- What is printed behind a token may stand there. -/
lemma before_gap (h : (x :: xs).IsChain Precedes) : x.Before (x.gap xs ++ printed xs) := by
  intro c hc
  rcases xs with _ | ⟨next, xs⟩
  · cases hc
  · by_cases hcomment : x.kind = .comment
    · obtain ⟨-, htext⟩ := (List.isChain_cons_cons.1 h).1 hcomment
      rw [gap, if_pos (by simp [hcomment]), List.nil_append, head?_printed_cons, htext] at hc
      exact .inr ⟨(Option.some_inj.1 hc).symm, .inl hcomment⟩
    · rw [gap, if_neg (by simpa using hcomment)] at hc
      exact .inl ⟨(Option.some_inj.1 hc).symm, hcomment⟩

lemma tokensFrom_gap (x : Spelling) (xs : List Spelling) (offset : Nat) :
    tokensFrom 0 offset (x.gap xs ++ printed xs) =
      tokensFrom 0 (offset + (x.gap xs).byteLength) (printed xs) := by
  rcases xs with _ | ⟨next, xs⟩
  · rfl
  · rw [gap]
    split
    · rfl
    · exact tokensFrom_space (next.head_not_space _) offset

/-- Printed tokens are read where they are printed. -/
theorem tokensFrom_printed : ∀ {xs : List Spelling}, xs.IsChain Precedes → ∀ offset : Nat,
    tokensFrom 0 offset (printed xs) = placed offset xs
  | [], _, _ => rfl
  | x :: rest, h, offset => by
    have hrest : rest.IsChain Precedes := h.tail
    rw [printed, tokensFrom_append x.text_ne_nil (munch_append (before_gap h)), tokensFrom_gap,
      tokensFrom_printed hrest]
    rfl

lemma map_placed (xs : List Spelling) (offset : Nat) :
    (placed offset xs).map (fun tok => (tok.kind, tok.text)) =
      xs.map fun x => (x.kind, x.text) := by
  induction xs generalizing offset with
  | nil => rfl
  | cons x xs ih => rw [placed, List.map_cons, List.map_cons, ih]

end Spelling

open Spelling

/-- Printing tokens and reading them again changes nothing: the same kinds and texts come back, in
their order, and no other token does. -/
theorem tokens_printed (xs : List Spelling) (h : xs.IsChain Precedes) :
    (tokens (printed xs)).map (fun tok => (tok.kind, tok.text)) =
      xs.map (fun x => (x.kind, x.text)) ∧
    ∀ tok ∈ tokens (printed xs), tok.kind ≠ .unexpected := by
  have hsame : (tokens (printed xs)).map (fun tok => (tok.kind, tok.text)) =
      xs.map fun x => (x.kind, x.text) := by
    rw [tokens, tokensFrom_printed h, map_placed]
  refine ⟨hsame, fun tok htok => ?_⟩
  have hmem : (tok.kind, tok.text) ∈ xs.map fun x => (x.kind, x.text) := by
    rw [← hsame]
    exact List.mem_map_of_mem htok
  obtain ⟨x, -, heq⟩ := List.mem_map.1 hmem
  have hkind : x.kind = tok.kind := congrArg Prod.fst heq
  rw [← hkind]
  exact x.expected

/-- Signs that would join without the spaces, a word that ends with an escaped carriage return, and
a comment that ends with one. -/
def signs : List Spelling :=
  [.word "2>&1".toList (by decide +kernel),
    ⟨.ampersand, "&".toList, by decide, by decide +kernel⟩,
    ⟨.ampersand, "&".toList, by decide, by decide +kernel⟩,
    .word "a'\"'\\\r".toList (by decide +kernel),
    ⟨.comment, "# c\r".toList, by decide, by decide +kernel⟩,
    ⟨.newline, "\n".toList, by decide, by decide +kernel⟩,
    ⟨.pipe, "|".toList, by decide, by decide +kernel⟩,
    ⟨.orOr, "||".toList, by decide, by decide +kernel⟩]

theorem tokens_printed_signs : signs.IsChain Precedes ∧
    printed signs = "2>&1 & & a'\"'\\\r # c\r\n | ||".toList ∧
    (tokens (printed signs)).map (fun tok => (tok.kind, tok.text)) =
      signs.map (fun x => (x.kind, x.text)) ∧
    ∀ tok ∈ tokens (printed signs), tok.kind ≠ .unexpected := by
  have hchain : signs.IsChain Precedes := by
    simp [signs, Precedes]
  exact ⟨hchain, by decide, tokens_printed signs hchain⟩

end FishScript
