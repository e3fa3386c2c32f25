/-
# Tokens when lines follow

A text all of whose tokens are recognised keeps them when further lines are written behind it, and
the tokens of these lines follow (`tokensFrom_append_line`). A word may be followed by a quote that
is never closed, for then the quote is a token of its own; so the lines must not close one, and the
text must not end in a carriage return, to which the line feed would belong.
-/
import Mathlib
import FishScript.Token.Lexer

namespace FishScript

/-! ## Words -/

/-- The text is empty or begins a new line, and holds no quote and no backslash. -/
structure Unquoted (t : Text) : Prop where
  line : ∀ c, t.head? = some c → c = '\n'
  free : ∀ c ∈ t, c ≠ '\'' ∧ c ≠ '"' ∧ c ≠ '\\'

namespace WordState

/-- The state is inside a quoted segment. -/
def isQuoted : WordState → Bool
  | .single | .double => true
  | _ => false

lemma next?_of_isQuoted {s : WordState} (hs : s.isQuoted = true) {c : Char}
    (hc : c ≠ '\'' ∧ c ≠ '"' ∧ c ≠ '\\') : s.next? c = some s := by
  obtain ⟨hquote, hdouble, hescape⟩ := hc
  cases s with
  | single => simp [next?, hquote]
  | double => simp [next?, hdouble, hescape]
  | _ => cases hs

lemma next?_newline {s : WordState} (hs : s.isQuoted = false) : s.next? '\n' = none := by
  cases s with
  | bare angle => cases angle <;> decide
  | start | escape | doubleEscape => decide
  | _ => cases hs

end WordState

lemma matched_of_isQuoted {s : WordState} (hs : s.isQuoted = true) : ∀ {rest : Text}
    {matched reached : Nat}, (∀ c ∈ rest, c ≠ '\'' ∧ c ≠ '"' ∧ c ≠ '\\') →
      (wordExtentFrom s matched reached rest).matched = matched
  | [], _, _, _ => rfl
  | c :: rest, matched, reached, h => by
    obtain ⟨hc, hrest⟩ := List.forall_mem_cons.1 h
    have hcomplete : s.isComplete = false := by
      cases s with
      | single | double => rfl
      | _ => cases hs
    rw [wordExtentFrom, WordState.next?_of_isQuoted hs hc]
    simp only [hcomplete, Bool.false_eq_true, if_false]
    exact matched_of_isQuoted hs hrest

lemma matched_append_line {rest : Text} (hrest : Unquoted rest) : ∀ (t : Text) (s : WordState)
    (matched reached : Nat), (wordExtentFrom s matched reached (t ++ rest)).matched =
      (wordExtentFrom s matched reached t).matched
  | [], s, matched, reached => by
    cases hs : s.isQuoted with
    | true => exact matched_of_isQuoted hs hrest.free
    | false =>
      rcases rest with _ | ⟨c, rest⟩
      · rfl
      · have hstop : wordExtentFrom s matched reached (c :: rest) = ⟨matched, reached⟩ := by
          rw [wordExtentFrom, hrest.line c rfl, WordState.next?_newline hs]
        rw [List.nil_append, hstop]
        rfl
  | c :: t, s, matched, reached => by
    rw [List.cons_append, wordExtentFrom, wordExtentFrom]
    split
    · rfl
    · exact matched_append_line hrest t _ _ _

/-! ## The first token -/

lemma takeWhile_append_line {p : Char → Bool} (hp : p '\n' = false) {rest : Text}
    (hrest : Unquoted rest) (t : Text) : (t ++ rest).takeWhile p = t.takeWhile p := by
  induction t with
  | nil =>
    rcases rest with _ | ⟨c, rest⟩
    · rfl
    · rw [List.nil_append, hrest.line c rfl, List.takeWhile_cons, hp]
      rfl
  | cons c t ih => rw [List.cons_append, List.takeWhile_cons, List.takeWhile_cons, ih]

lemma append_ne_cons {t rest : Text} {c : Char} (hrest : t = [] → rest.head? ≠ some c)
    (h : ∀ u, t ≠ c :: u) (u : Text) : t ++ rest ≠ c :: u := by
  intro heq
  rcases t with _ | ⟨d, t⟩
  · refine hrest rfl ?_
    rw [List.nil_append] at heq
    rw [heq]
    rfl
  · obtain ⟨rfl, -⟩ := List.cons.inj heq
    exact h t rfl

/-- What stands at the start of a text stands there also when another text follows, unless the two
make a longer sign together, or a longer space, comment or word. -/
lemma munch_append {t rest : Text} (hne : t ≠ []) (hbackslash : t ≠ ['\\'])
    (hsign : ∀ c, t.getLast? = some c → c = '&' ∨ c = '|' → rest.head? ≠ some c)
    (hreturn : t.getLast? = some '\r' → rest.head? ≠ some '\n')
    (hspace : (t ++ rest).takeWhile isSpace = t.takeWhile isSpace)
    (hcomment : t.head? = some '#' →
      (t ++ rest).takeWhile (· != '\n') = t.takeWhile (· != '\n'))
    (hword : munch t = munchWord t → munchWord (t ++ rest) = munchWord t) :
    munch (t ++ rest) = munch t := by
  unfold munch at hword
  -- a sign of two characters and an escaped line break stand whatever follows
  split at hword <;> try rfl
  case h_2 t hamp =>
    have hnext := append_ne_cons (fun h => hsign '&' (by rw [h]; rfl) (.inl rfl)) fun u => hamp u
    rw [munch.eq_2 t hamp]
    exact munch.eq_2 (t ++ rest) hnext
  case h_4 t hbar =>
    have hnext := append_ne_cons (fun h => hsign '|' (by rw [h]; rfl) (.inr rfl)) fun u => hbar u
    rw [munch.eq_4 t hbar]
    exact munch.eq_4 (t ++ rest) hnext
  case h_10 t =>
    have htail : (t ++ rest).takeWhile (· != '\n') = t.takeWhile (· != '\n') :=
      (List.cons.inj (hcomment rfl)).2
    show Munch.mk _ (1 + ((t ++ rest).takeWhile (· != '\n')).length) = _
    rw [htail]
    rfl
  case h_11 c t hand hamp hor hbar hsemicolon hline hreturnLine hescape hescapeReturn hhash =>
    -- the line break behind the text is not taken in by a carriage return or a backslash
    have hfeed : ∀ u, c = '\r' ∨ c = '\\' → t ++ rest ≠ '\n' :: u := by
      intro u hc
      refine append_ne_cons (fun h => ?_) (fun v hv => ?_) u
      · subst h
        obtain rfl | rfl := hc
        · exact hreturn rfl
        · exact absurd rfl hbackslash
      · obtain rfl | rfl := hc
        · exact hreturnLine v rfl hv
        · exact hescape v rfl hv
    have hfeed' : ∀ u, c = '\\' → t ++ rest ≠ '\r' :: '\n' :: u := by
      rintro u rfl heq
      rcases t with _ | ⟨d, t⟩
      · exact hbackslash rfl
      · obtain ⟨rfl, htail⟩ := List.cons.inj heq
        refine append_ne_cons (fun h => ?_) (fun v hv => ?_) u htail
        · subst h
          exact hreturn rfl
        · exact hescapeReturn v rfl (by rw [hv])
    have heq : munch (c :: t) = _ :=
      munch.eq_11 c t hand hamp hor hbar hsemicolon hline hreturnLine hescape hescapeReturn hhash
    have heq' : munch (c :: (t ++ rest)) = _ :=
      munch.eq_11 c (t ++ rest) (fun u hc => absurd hc hamp) hamp (fun u hc => absurd hc hbar) hbar
        hsemicolon hline (fun u hc => hfeed u (.inl hc))
        (fun u hc => hfeed u (.inr hc)) hfeed' hhash
    rw [List.cons_append, heq', heq]
    by_cases hc : isSpace c = true
    · rw [if_pos hc, if_pos hc]
      rw [List.cons_append, List.takeWhile_cons_of_pos hc, List.takeWhile_cons_of_pos hc] at hspace
      rw [(List.cons.inj hspace).2]
    · rw [if_neg hc] at hword
      rw [if_neg hc, if_neg hc, ← List.cons_append, hword rfl]
  case h_12 => exact absurd rfl hne

lemma munch_hash {w rest : Text} (hw : ∀ c ∈ w, c ≠ '\n')
    (hrest : ∀ c, rest.head? = some c → c = '\n') :
    munch ('#' :: w ++ rest) = ⟨some .comment, ('#' :: w).length⟩ := by
  have hall : ∀ c ∈ w, (c != '\n') = true := by simpa using hw
  have hstop : rest.takeWhile (· != '\n') = [] := by
    rcases rest with _ | ⟨c, rest⟩
    · rfl
    · rw [hrest c rfl]
      rfl
  show Munch.mk _ (1 + ((w ++ rest).takeWhile (· != '\n')).length) = _
  rw [List.takeWhile_append_of_pos hall, hstop, List.append_nil, List.length_cons, Nat.add_comm]

lemma munchWord_append_line {t rest : Text} (hrest : Unquoted rest)
    (hkind : (munchWord t).kind? ≠ some .unexpected) : munchWord (t ++ rest) = munchWord t := by
  have hmatched : (wordExtent (t ++ rest)).matched = (wordExtent t).matched :=
    matched_append_line hrest t _ _ _
  unfold munchWord at hkind ⊢
  simp only [hmatched]
  by_cases h : (wordExtent t).matched = 0
  · rw [if_pos h] at hkind
    exact absurd rfl hkind
  · rw [if_neg h, if_neg h]

lemma munch_append_line {t rest : Text} (hrest : Unquoted rest) (hne : t ≠ [])
    (hkind : (munch t).kind? ≠ some .unexpected) (hreturn : t.getLast? ≠ some '\r') :
    munch (t ++ rest) = munch t := by
  refine munch_append hne ?_ ?_ (fun h => absurd h hreturn) (takeWhile_append_line rfl hrest t)
    (fun _ => takeWhile_append_line rfl hrest t) ?_
  · rintro rfl
    exact hkind rfl
  · intro c _ hc hhead
    rw [hrest.line c hhead] at hc
    exact absurd hc (by decide)
  · intro hword
    rw [hword] at hkind
    exact munchWord_append_line hrest hkind

/-! ## No token reaches behind the text -/

lemma extent_le : ∀ {t : Text} {s : WordState} {matched reached : Nat}, matched ≤ reached →
    (wordExtentFrom s matched reached t).matched ≤ reached + t.length ∧
      (wordExtentFrom s matched reached t).reached ≤ reached + t.length
  | [], _, _, _, h => ⟨h, Nat.le_refl _⟩
  | c :: t, s, matched, reached, h => by
    rw [wordExtentFrom, List.length_cons]
    split
    · exact ⟨h.trans (Nat.le_add_right _ _), Nat.le_add_right _ _⟩
    · rename_i s' _
      have hmatched : (if s'.isComplete then reached + 1 else matched) ≤ reached + 1 := by
        split <;> omega
      obtain ⟨hm, hr⟩ := extent_le (t := t) (s := s') hmatched
      exact ⟨by omega, by omega⟩

lemma munch_size_le {t : Text} (hne : t ≠ []) : (munch t).size ≤ t.length := by
  have hpos : 0 < t.length := List.length_pos_iff.2 hne
  have hword : (munchWord t).size ≤ t.length := by
    obtain ⟨hmatched, hreached⟩ := extent_le (t := t) (s := .start) (Nat.le_refl 0)
    rw [Nat.zero_add] at hmatched hreached
    rw [munchWord, wordExtent]
    by_cases h : (wordExtentFrom .start 0 0 t).matched = 0
    · rw [if_pos h]
      exact max_le hpos hreached
    · rw [if_neg h]
      exact hmatched
  have htake : ∀ (p : Char → Bool) (c : Char) (u : Text),
      1 + (u.takeWhile p).length ≤ (c :: u).length := by
    intro p c u
    have hle := (List.takeWhile_prefix p (l := u)).length_le
    rw [List.length_cons]
    omega
  unfold munch
  split <;> try exact htake _ _ _
  case h_11 =>
    split
    · exact htake _ _ _
    · exact hword
  case h_12 => exact absurd rfl hne
  all_goals simp

/-! ## Reading on -/

lemma tokensFrom_suffix (c : Char) (t : Text) (offset : Nat) :
    tokensFrom ((munch (c :: t)).size - 1) (offset + c.utf8Size) t <:+
      tokensFrom 0 offset (c :: t) := by
  rw [tokensFrom]
  split
  · exact List.suffix_cons _ _
  · exact List.suffix_rfl

/-- The tokens of a text stay as they are when another text follows, and are followed by those of
the latter, if in every place where a token begins the longest match stays as it is. What is known
of such a place, `P`, depends on the characters that are still to be skipped. -/
theorem tokensFrom_append_of {rest : Text} {P : Nat → Nat → Text → Prop}
    (hskip : ∀ {n offset c t}, P (n + 1) offset (c :: t) → P n (offset + c.utf8Size) t)
    (hmunch : ∀ {offset c t}, P 0 offset (c :: t) → munch (c :: t ++ rest) = munch (c :: t) ∧
      P ((munch (c :: t)).size - 1) (offset + c.utf8Size) t) :
    ∀ {t : Text} {pending offset : Nat}, pending ≤ t.length → P pending offset t →
      tokensFrom pending offset (t ++ rest) =
        tokensFrom pending offset t ++ tokensFrom 0 (offset + t.byteLength) rest
  | [], pending, offset, hpending, _ => by
    rw [Nat.le_zero.1 hpending]
    rfl
  | c :: t, pending, offset, hpending, hP => by
    have hnext : ∀ n, n ≤ t.length → P n (offset + c.utf8Size) t →
        tokensFrom n (offset + c.utf8Size) (t ++ rest) =
          tokensFrom n (offset + c.utf8Size) t ++
            tokensFrom 0 (offset + Text.byteLength (c :: t)) rest := by
      intro n hn hP
      rw [tokensFrom_append_of hskip hmunch hn hP, Text.byteLength_cons, Nat.add_assoc]
    cases pending with
    | succ n => exact hnext n (by simpa using hpending) (hskip hP)
    | zero =>
      have hsize := munch_size_le (List.cons_ne_nil c t)
      rw [List.length_cons] at hsize
      obtain ⟨hsame, hrest⟩ := hmunch hP
      have htake : (c :: t ++ rest).take (munch (c :: t)).size =
          (c :: t).take (munch (c :: t)).size :=
        List.take_append_of_le_length (by simpa using hsize)
      rw [List.cons_append] at hsame htake
      rw [List.cons_append, tokensFrom, tokensFrom, hsame, htake, hnext _ (by omega) hrest]
      split <;> rfl

/-- The tokens of a text stay as they are when another line follows, and are followed by those of
this line. -/
theorem tokensFrom_append_line {rest : Text} (hrest : Unquoted rest) {t : Text}
    {pending offset : Nat} (hpending : pending ≤ t.length) (hreturn : t.getLast? ≠ some '\r')
    (hlexes : ∀ tok ∈ tokensFrom pending offset t, tok.kind ≠ .unexpected) :
    tokensFrom pending offset (t ++ rest) =
      tokensFrom pending offset t ++ tokensFrom 0 (offset + t.byteLength) rest := by
  have hlast : ∀ {c : Char} {t : Text}, (c :: t).getLast? ≠ some '\r' →
      t.getLast? ≠ some '\r' := by
    intro c t hreturn h
    rcases t with _ | ⟨d, t⟩
    · cases h
    · exact hreturn h
  refine tokensFrom_append_of (P := fun pending offset t => t.getLast? ≠ some '\r' ∧
    ∀ tok ∈ tokensFrom pending offset t, tok.kind ≠ .unexpected) ?_ ?_ hpending ⟨hreturn, hlexes⟩
  · rintro n offset c t ⟨hreturn, hlexes⟩
    exact ⟨hlast hreturn, hlexes⟩
  · rintro offset c t ⟨hreturn, hlexes⟩
    have hkind : (munch (c :: t)).kind? ≠ some .unexpected := by
      intro h
      refine hlexes ⟨.unexpected, (c :: t).take (munch (c :: t)).size, offset⟩ ?_ rfl
      rw [tokensFrom]
      simp only [h]
      exact List.mem_cons_self
    exact ⟨munch_append_line hrest (List.cons_ne_nil c t) hkind hreturn, hlast hreturn,
      fun tok htok => hlexes tok ((tokensFrom_suffix c t offset).subset htok)⟩

end FishScript
