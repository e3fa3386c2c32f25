/-
# Tokens when another text follows

A text that ends with a semicolon, and all of whose tokens are recognised, keeps them whatever is
written behind it, and the tokens of what is written there follow, shifted to their place
(`tokens_append`). A quote of the text that the text behind it might close is a token that is not
recognised: a word that may still go on at the end of a text is complete there, or what follows the
last place where it was is no token (`isComplete_or_staysOpen`).
-/
import Mathlib
import FishScript.Proofs.Token.Appending
import FishScript.Proofs.Token.Slices

namespace FishScript

/-! ## Words that go on -/

namespace WordState

/-- The state after a text, if a word can go on with all of it. -/
def run? (s : WordState) : Text → Option WordState
  | [] => some s
  | c :: t => (s.next? c).bind fun s' => s'.run? t

/-- A word can go on with all of the text, but nowhere in it is it complete. -/
def StaysOpen (s : WordState) : Text → Prop
  | [] => True
  | c :: t => ∃ s', s.next? c = some s' ∧ s'.isComplete = false ∧ s'.StaysOpen t

variable {s s' s₁ : WordState} {t u rest : Text} {c : Char} {matched reached : Nat}

lemma run?_append : s.run? (t ++ u) = (s.run? t).bind fun s' => s'.run? u := by
  induction t generalizing s with
  | nil => rfl
  | cons c t ih =>
    rw [List.cons_append, run?, run?, Option.bind_assoc]
    exact Option.bind_congr fun s' _ => ih

lemma exists_of_run?_concat (h : s.run? (t ++ [c]) = some s') :
    ∃ s₁, s.run? t = some s₁ ∧ s₁.next? c = some s' := by
  rw [run?_append] at h
  obtain ⟨s₁, hs₁, hlast⟩ := Option.bind_eq_some_iff.1 h
  exact ⟨s₁, hs₁, by simpa [run?] using hlast⟩

lemma staysOpen_append (h : s.StaysOpen t) (hrun : s.run? t = some s') (hu : s'.StaysOpen u) :
    s.StaysOpen (t ++ u) := by
  induction t generalizing s with
  | nil =>
    obtain rfl := Option.some_inj.1 hrun
    exact hu
  | cons c t ih =>
    obtain ⟨s₁, hnext, hopen, hrest⟩ := h
    rw [run?, hnext] at hrun
    exact ⟨s₁, hnext, hopen, ih hrest hrun⟩

/-- At the end of a text with which a word can go on it is complete, or has been open since the last
place where it was. -/
lemma isComplete_or_staysOpen : ∀ {t : Text} {s s' : WordState}, s.run? t = some s' → t ≠ [] →
    s'.isComplete = true ∨ ∃ x y s₁, t = x ++ y ∧ y ≠ [] ∧ s.run? x = some s₁ ∧ s₁.StaysOpen y ∧
      (x = [] ∨ s₁.isComplete = true) := by
  intro t
  induction t using List.reverseRecOn with
  | nil => exact fun _ h => absurd rfl h
  | append_singleton t c ih =>
    intro s s' hrun _
    obtain ⟨s₂, hs₂, hnext⟩ := exists_of_run?_concat hrun
    by_cases hcomplete : s'.isComplete = true
    · exact .inl hcomplete
    right
    have hopen : s₂.StaysOpen [c] := ⟨s', hnext, by simpa using hcomplete, trivial⟩
    by_cases ht : t = []
    · subst ht
      exact ⟨[], [c], s₂, rfl, List.cons_ne_nil _ _, hs₂, hopen, .inl rfl⟩
    obtain hcomplete₂ | ⟨x, y, s₁, rfl, hy, hx, hstays, hcut⟩ := ih hs₂ ht
    · exact ⟨t, [c], s₂, rfl, List.cons_ne_nil _ _, hs₂, hopen, .inr hcomplete₂⟩
    · rw [run?_append, hx] at hs₂
      exact ⟨x, y ++ [c], s₁, List.append_assoc x y [c], by simp, hx,
        staysOpen_append hstays hs₂ hopen, hcut⟩

/-- The extent of a word that cannot go on with all of a text does not depend on what follows. -/
lemma wordExtentFrom_append_of_run?_eq_none (h : s.run? t = none) (rest : Text) :
    wordExtentFrom s matched reached (t ++ rest) = wordExtentFrom s matched reached t := by
  induction t generalizing s matched reached with
  | nil => cases h
  | cons c t ih =>
    rw [List.cons_append, wordExtentFrom, wordExtentFrom]
    rw [run?] at h
    cases hs : s.next? c with
    | none => rfl
    | some s' =>
      rw [hs] at h
      exact ih h

lemma StaysOpen.matched_eq (h : s.StaysOpen t) :
    (wordExtentFrom s matched reached t).matched = matched := by
  induction t generalizing s matched reached with
  | nil => rfl
  | cons c t ih =>
    obtain ⟨s', hnext, hopen, hrest⟩ := h
    rw [wordExtentFrom, hnext]
    simp only [hopen, Bool.false_eq_true, if_false]
    exact ih hrest

/-- Behind a place where a word is complete the extent is that of what follows. -/
lemma wordExtentFrom_append_of_isComplete (hrun : s.run? t = some s₁)
    (hcomplete : s₁.isComplete = true) (hne : t ≠ []) (u : Text) :
    wordExtentFrom s matched reached (t ++ u) =
      wordExtentFrom s₁ (reached + t.length) (reached + t.length) u := by
  induction t generalizing s matched reached with
  | nil => exact absurd rfl hne
  | cons c t ih =>
    rw [run?] at hrun
    obtain ⟨s', hnext, hrun⟩ := Option.bind_eq_some_iff.1 hrun
    rw [List.cons_append, wordExtentFrom, hnext, List.length_cons]
    by_cases ht : t = []
    · subst ht
      obtain rfl := Option.some_inj.1 hrun
      simp only [hcomplete, if_true]
      rfl
    · rw [Nat.add_comm t.length, ← Nat.add_assoc]
      exact ih hrun ht

lemma matched_append (hrun : s.run? t = some s₁) (hcomplete : s₁.isComplete = true) (hne : t ≠ [])
    (h : s₁.StaysOpen u) :
    (wordExtentFrom s matched reached (t ++ u)).matched = reached + t.length := by
  rw [wordExtentFrom_append_of_isComplete hrun hcomplete hne]
  exact h.matched_eq

/-- A piece that is not complete at once begins with a quote or a backslash. -/
lemma opener_of_piece? (h : piece? c false = some s') (hopen : s'.isComplete = false) :
    c = '\'' ∨ c = '"' ∨ c = '\\' := by
  by_contra hc
  obtain ⟨hsingle, hdouble, hescape⟩ : c ≠ '\'' ∧ c ≠ '"' ∧ c ≠ '\\' := by
    simpa [not_or] using hc
  rw [piece?, if_neg hsingle, if_neg hdouble, if_neg hescape] at h
  split at h
  · cases h
  · obtain rfl := Option.some_inj.1 h
    cases hopen

/-- What leaves a complete word open would begin a word that stays open. -/
lemma next?_start (hs : s.isComplete = true) (h : s.next? c = some s')
    (hopen : s'.isComplete = false) :
    WordState.start.next? c = some s' ∧ (c = '\'' ∨ c = '"' ∨ c = '\\') := by
  cases s with
  | bare angle =>
    have hpiece : piece? c false = some s' := by
      rw [next?] at h
      split at h
      · cases h
        cases hopen
      · split at h
        · split at h <;> cases h
          cases hopen
        · exact h
    have hc := opener_of_piece? hpiece hopen
    have hhash : c ≠ '#' := by
      rintro rfl
      revert hc
      decide
    rw [next?, if_neg hhash]
    exact ⟨hpiece, hc⟩
  | _ => cases hs

end WordState

open WordState

lemma munchWord_of_staysOpen {t : Text} (h : WordState.start.StaysOpen t) :
    (munchWord t).kind? = some .unexpected := by
  rw [munchWord, wordExtent, h.matched_eq]
  rfl

lemma munch_of_staysOpen {s : WordState} {t : Text} (hs : s.isComplete = true) (hne : t ≠ [])
    (h : s.StaysOpen t) : (munch t).kind? = some .unexpected := by
  obtain ⟨c, t, rfl⟩ := List.exists_cons_of_ne_nil hne
  obtain ⟨s', hnext, hopen, hrest⟩ := h
  obtain ⟨hstart, hc⟩ := next?_start hs hnext hopen
  have hword : (munchWord (c :: t)).kind? = some .unexpected :=
    munchWord_of_staysOpen ⟨s', hstart, hopen, hrest⟩
  obtain rfl | rfl | rfl := hc
  · exact hword
  · exact hword
  · -- an escaped character would complete the word
    obtain rfl : WordState.escape = s' := Option.some_inj.1 hstart
    cases t with
    | nil => exact hword
    | cons d t =>
      obtain ⟨s'', hnext', hopen', -⟩ := hrest
      simp only [next?] at hnext'
      split at hnext' <;> cases hnext'
      cases hopen'

/-! ## Texts that end with a semicolon -/

/-- The tokens of a text are recognised, and a semicolon is last, unless there are none. -/
structure Terminated (pending offset : Nat) (t : Text) : Prop where
  last : ∀ c ∈ t.getLast?, c = ';'
  recognised : ∀ tok ∈ tokensFrom pending offset t, tok.kind ≠ .unexpected
  semicolon : ∀ tok ∈ (tokensFrom pending offset t).getLast?, tok.kind = .semicolon

namespace Terminated

variable {t rest : Text} {offset : Nat}

/-- What is known of a text is known of its end, if the tokens there are tokens of the text. -/
lemma tail {c : Char} {pending pending' offset' : Nat} (h : Terminated pending offset (c :: t))
    (hsuffix : tokensFrom pending' offset' t <:+ tokensFrom pending offset (c :: t)) :
    Terminated pending' offset' t := by
  refine ⟨fun d hd => ?_, fun tok htok => h.recognised tok (hsuffix.subset htok),
    fun tok htok => ?_⟩
  · refine h.last d ?_
    cases t with
    | nil => cases hd
    | cons => exact hd
  · obtain ⟨front, hfront⟩ := hsuffix
    refine h.semicolon tok ?_
    rw [← hfront, List.getLast?_append_of_ne_nil front ?_]
    · exact htok
    · rintro hnil
      rw [hnil] at htok
      cases htok

lemma kind_ne_unexpected (h : Terminated 0 offset t) (hne : t ≠ []) :
    (munch t).kind? ≠ some .unexpected := by
  obtain ⟨c, t, rfl⟩ := List.exists_cons_of_ne_nil hne
  intro hkind
  refine h.recognised ⟨.unexpected, (c :: t).take (munch (c :: t)).size, offset⟩ ?_ rfl
  rw [tokensFrom]
  simp only [hkind]
  exact List.mem_cons_self

lemma eq_semicolon (h : Terminated 0 offset t) (hne : t ≠ []) {kind : TokenKind}
    (hmunch : munch t = ⟨some kind, t.length⟩) : kind = .semicolon := by
  have htokens : tokensFrom 0 offset (t ++ []) = ⟨kind, t, offset⟩ :: _ :=
    tokensFrom_append hne (by rwa [List.append_nil]) offset
  rw [List.append_nil] at htokens
  refine h.semicolon ⟨kind, t, offset⟩ ?_
  rw [htokens]
  rfl

lemma run?_eq_none (h : Terminated 0 offset t) (hne : t ≠ []) (hword : munch t = munchWord t) :
    WordState.start.run? t = none := by
  by_contra hrun
  obtain ⟨s, hs⟩ := Option.ne_none_iff_exists'.1 hrun
  obtain hcomplete | ⟨x, y, s₁, rfl, hy, hx, hstays, hcut⟩ := isComplete_or_staysOpen hs hne
  · -- the word is all of the text
    have hmatched : (wordExtent t).matched = t.length := by
      have hall : (wordExtent (t ++ [])).matched = 0 + t.length :=
        matched_append hs hcomplete hne trivial
      rwa [List.append_nil, Nat.zero_add] at hall
    have hlength : t.length ≠ 0 := by simpa using hne
    have hkind : TokenKind.word = .semicolon :=
      h.eq_semicolon hne (by rw [hword, munchWord, hmatched, if_neg hlength])
    cases hkind
  · by_cases hnil : x = []
    · subst hnil
      obtain rfl := Option.some_inj.1 hx
      exact h.kind_ne_unexpected hne (by rw [hword]; exact munchWord_of_staysOpen hstays)
    · -- what follows the word is no token
      have hcomplete := hcut.resolve_left hnil
      have hmatched : (wordExtent (x ++ y)).matched = x.length := by
        rw [wordExtent, matched_append hx hcomplete hnil hstays, Nat.zero_add]
      have hlength : x.length ≠ 0 := by simpa using hnil
      have htokens : tokensFrom 0 offset (x ++ y) =
          ⟨.word, x, offset⟩ :: tokensFrom 0 (offset + x.byteLength) y :=
        tokensFrom_append hnil (by rw [hword, munchWord, hmatched, if_neg hlength]) offset
      obtain ⟨c, y, rfl⟩ := List.exists_cons_of_ne_nil hy
      refine h.recognised ⟨.unexpected, (c :: y).take (munch (c :: y)).size,
        offset + x.byteLength⟩ ?_ rfl
      rw [htokens, tokensFrom]
      simp only [munch_of_staysOpen hcomplete hy hstays]
      simp

lemma munch_append (h : Terminated 0 offset t) (hne : t ≠ []) (rest : Text) :
    munch (t ++ rest) = munch t := by
  obtain ⟨c, hc⟩ := Option.ne_none_iff_exists'.1 (mt List.getLast?_eq_none_iff.1 hne)
  obtain rfl := h.last c hc
  have hmem : ';' ∈ t := List.mem_of_getLast? hc
  have hstop : ∀ p : Char → Bool, (∃ c ∈ t, p c = false) →
      (t ++ rest).takeWhile p = t.takeWhile p := by
    rintro p ⟨c, hc, hp⟩
    rw [List.takeWhile_append, if_neg]
    intro hlength
    have hall : t.takeWhile p = t := (List.takeWhile_prefix p).eq_of_length hlength
    rw [List.takeWhile_eq_self_iff.1 hall c hc] at hp
    cases hp
  refine FishScript.munch_append hne ?_ ?_ ?_ (hstop _ ⟨_, hmem, rfl⟩) (fun hhash => ?_)
    (fun hword => ?_)
  · rintro rfl
    cases hc
  · rintro d hd (rfl | rfl) <;> rw [hc] at hd <;> cases hd
  · intro hreturn
    rw [hc] at hreturn
    cases hreturn
  · -- a comment that reaches to the end would take the semicolon in
    refine hstop _ ?_
    by_contra hnone
    obtain ⟨u, rfl⟩ := List.head?_eq_some_iff.1 hhash
    have hall : ∀ d ∈ u, d ≠ '\n' := by
      rintro d hd rfl
      exact hnone ⟨'\n', List.mem_cons_of_mem _ hd, rfl⟩
    have hmunch : munch ('#' :: u ++ []) = ⟨some .comment, ('#' :: u).length⟩ :=
      munch_hash hall (by simp)
    rw [List.append_nil] at hmunch
    have hkind : TokenKind.comment = .semicolon := h.eq_semicolon hne hmunch
    cases hkind
  · have hnone := h.run?_eq_none hne hword
    unfold munchWord wordExtent
    rw [wordExtentFrom_append_of_run?_eq_none hnone]

end Terminated

/-! ## Shifted tokens -/

/-- The span some bytes further on. -/
def Span.shift (k : Nat) (s : Span) : Span := ⟨s.start + k, s.stop + k⟩

/-- The token some bytes further on. -/
def Token.shift (k : Nat) (tok : Token) : Token := { tok with start := tok.start + k }

/-- The terminal some bytes further on. -/
def Terminal.shift (k : Nat) (t : Terminal) : Terminal := { t with span := t.span.shift k }

lemma Token.terminal_shift (k : Nat) (tok : Token) :
    (tok.shift k).terminal = tok.terminal.shift k := by
  simp only [terminal, span, stop, shift, Terminal.shift, Span.shift, Terminal.mk.injEq,
    Span.mk.injEq, true_and]
  exact ⟨rfl, by omega⟩

lemma tokensFrom_shift (k : Nat) : ∀ (t : Text) (pending offset : Nat),
    tokensFrom pending (offset + k) t = (tokensFrom pending offset t).map (Token.shift k)
  | [], _, _ => rfl
  | c :: t, pending, offset => by
    have hoffset : offset + k + c.utf8Size = offset + c.utf8Size + k := by omega
    cases pending with
    | succ n =>
      rw [tokensFrom, tokensFrom, hoffset, tokensFrom_shift k t]
    | zero =>
      rw [tokensFrom, tokensFrom, hoffset, tokensFrom_shift k t]
      split <;> rfl

/-- A text that ends with a semicolon keeps its tokens when another text follows, and the tokens of
the latter follow. -/
theorem tokens_append {a : Text} (h : Terminated 0 0 a) (b : Text) :
    tokens (a ++ b) = tokens a ++ (tokens b).map (Token.shift a.byteLength) := by
  have hshift := tokensFrom_shift a.byteLength b 0 0
  rw [tokens, tokens, tokens, ← hshift]
  refine tokensFrom_append_of (P := Terminated) (fun h => h.tail List.suffix_rfl) ?_
    (Nat.zero_le _) h
  intro offset c t h
  exact ⟨h.munch_append (List.cons_ne_nil c t) b, h.tail (tokensFrom_suffix c t offset)⟩

/-- The terminals of a text behind another one that ends with a semicolon follow those of the
latter. -/
theorem terminals_append {a : Text} (h : Terminated 0 0 a) (b : Text) :
    terminals (a ++ b) = terminals a ++ (terminals b).map (Terminal.shift a.byteLength) := by
  rw [terminals, tokens_append h, List.map_append, List.map_map]
  simp only [terminals, List.map_map]
  congr 1
  exact List.map_congr_left fun tok _ => tok.terminal_shift _

/-! ## Texts of shifted spans -/

namespace Text

lemma byteLength_of_skipBytes? : ∀ {t : Text} {n : Nat} {r : Text}, skipBytes? n t = some r →
    n + r.byteLength = t.byteLength
  | t, 0, r, h => by
    rw [skipBytes?, Option.some_inj] at h
    rw [h, Nat.zero_add]
  | [], n + 1, r, h => by cases h
  | c :: t, n + 1, r, h => by
    rw [skipBytes?] at h
    split at h
    · have hrest := byteLength_of_skipBytes? h
      rw [byteLength_cons]
      omega
    · cases h

lemma skipBytes?_append : ∀ {t : Text} {n : Nat} (u : Text), n ≤ t.byteLength →
    skipBytes? n (t ++ u) = (skipBytes? n t).map (· ++ u)
  | t, 0, u, _ => by rw [skipBytes?, skipBytes?, Option.map_some]
  | [], n + 1, u, h => by cases h
  | c :: t, n + 1, u, h => by
    rw [byteLength_cons] at h
    rw [List.cons_append, skipBytes?, skipBytes?]
    split
    · exact skipBytes?_append u (by omega)
    · rfl

lemma skipBytes?_add (s t : Text) (n : Nat) :
    skipBytes? (s.byteLength + n) (s ++ t) = skipBytes? n t := by
  induction s with
  | nil => rw [byteLength_nil, Nat.zero_add, List.nil_append]
  | cons c s ih =>
    have hpos : 0 < c.utf8Size := Char.utf8Size_pos c
    obtain ⟨m, hm⟩ : ∃ m, c.utf8Size + byteLength s + n = m + 1 :=
      ⟨c.utf8Size + byteLength s + n - 1, by omega⟩
    have hrest : m + 1 - c.utf8Size = byteLength s + n := by omega
    rw [byteLength_cons, List.cons_append, hm, skipBytes?, if_pos (by omega), hrest, ih]

lemma takeBytes?_append {t : Text} {n : Nat} (u : Text) (h : n ≤ t.byteLength) :
    takeBytes? n (t ++ u) = takeBytes? n t := by
  rw [takeBytes?, takeBytes?, skipBytes?_append u h, Option.map_map]
  refine congrArg (fun f => Option.map f (skipBytes? n t)) (funext fun r => ?_)
  have hlength : (t ++ u).length - (r ++ u).length = t.length - r.length := by
    rw [List.length_append, List.length_append]
    omega
  rw [Function.comp, hlength, List.take_append_of_le_length (Nat.sub_le _ _)]

lemma slice?_append_left {t : Text} {start stop : Nat} (h : stop ≤ t.byteLength) (u : Text) :
    slice? start stop (t ++ u) = slice? start stop t := by
  rw [slice?, slice?]
  split
  · rfl
  · rename_i hle
    rw [skipBytes?_append u (by omega), Option.bind_map]
    refine Option.bind_congr fun r hr => ?_
    have hlength := byteLength_of_skipBytes? hr
    exact takeBytes?_append u (by omega)

lemma slice?_append_right (s t : Text) (start stop : Nat) :
    slice? (start + s.byteLength) (stop + s.byteLength) (s ++ t) = slice? start stop t := by
  rw [slice?, slice?, Nat.add_sub_add_right, Nat.add_comm start, skipBytes?_add]
  split
  · rw [if_pos (by omega)]
  · rw [if_neg (by omega)]

end Text

namespace Span

lemma text?_append {s : Span} {a : Text} (h : s.stop ≤ a.byteLength) (b : Text) :
    s.text? (a ++ b) = s.text? a := Text.slice?_append_left h b

lemma text?_shift (s : Span) (a b : Text) :
    (s.shift a.byteLength).text? (a ++ b) = s.text? b := Text.slice?_append_right a b _ _

end Span

end FishScript
