/-
# Line endings

A source whose line feeds all get a carriage return before them is read as the same tokens, carriage
returns apart, exactly if no token escapes a line feed (`tokens_withReturns`). A backslash escapes
every character but a line feed. So where a backslash and a line feed follow a word, the word ends
before the backslash and the line goes on, while the carriage return that is put there is escaped
and the line ends behind it. Inside double quotes it is the other way round.
-/
import Mathlib
import FishScript.Proofs.Token.Lines
import FishScript.Proofs.Token.Returns

namespace FishScript

/-! ## Escaped line feeds -/

/-- Behind the token stands a line feed that is escaped: the token is a word, and a backslash and
the line feed follow it, or it is unexpected, and a backslash is the last of it. -/
def Token.escapesBreak (tok : Token) (rest : Text) : Bool :=
  match tok.kind with
  | .word => ['\\', '\n'].isPrefixOf rest
  | .unexpected => tok.text.getLast? == some '\\' && ['\n'].isPrefixOf rest
  | _ => false

/-- In a text that starts at the offset no token escapes a line feed. -/
def Unescaped (offset : Nat) (t : Text) : Prop :=
  ∀ tok ∈ tokensFrom 0 offset t,
    tok.escapesBreak ((t.skipBytes? (tok.stop - offset)).getD []) = false

section Escaped

variable {s s₁ s' : WordState} {t x y rest : Text} {c : Char} {matched reached : Nat}

lemma wordExtentFrom_of_staysOpen (h : s.StaysOpen y) (hrun : s.run? y = some s') (u : Text) :
    wordExtentFrom s matched reached (y ++ u) =
      wordExtentFrom s' matched (reached + y.length) u := by
  induction y generalizing s reached with
  | nil =>
    obtain rfl := Option.some_inj.1 hrun
    rfl
  | cons c y ih =>
    obtain ⟨s₂, hnext, hopen, hy⟩ := h
    rw [WordState.run?, hnext] at hrun
    rw [List.cons_append, wordExtentFrom, hnext, List.length_cons, Nat.add_comm y.length,
      ← Nat.add_assoc]
    simp only [hopen, Bool.false_eq_true, if_false]
    exact ih hy hrun

lemma le_reached : reached ≤ (wordExtentFrom s matched reached t).reached := by
  induction t generalizing s matched reached with
  | nil => exact Nat.le_refl _
  | cons c t ih =>
    rw [wordExtentFrom]
    split
    · exact Nat.le_refl _
    · exact (Nat.le_succ _).trans ih

lemma eq_backslash_of_next? (h : s.next? c = some s') (hs' : s' = .escape ∨ s' = .doubleEscape) :
    c = '\\' := by
  rcases hs' with rfl | rfl <;> cases s <;>
    simp only [WordState.next?, WordState.piece?, Option.some_inj] at h <;>
    split_ifs at h <;> first | assumption | cases h

/-- Quotes and backslashes are read behind a complete word as at its start. -/
lemma next?_opener (hs : s.isComplete = true) (hc : c = '\'' ∨ c = '"' ∨ c = '\\') :
    s.next? c = WordState.start.next? c := by
  cases s with
  | bare angle => obtain rfl | rfl | rfl := hc <;> rfl
  | _ => cases hs

/-- A word, or nothing, is followed by the beginning of another one that stays open, up to a
backslash that escapes the next character. -/
structure RunsInto (x y : Text) (s' : WordState) : Prop where
  complete : x = [] ∨ WordState.start.Accepts x
  staysOpen : WordState.start.StaysOpen y
  run : WordState.start.run? y = some s'
  escapes : s' = .escape ∨ s' = .doubleEscape

/-- Where reading a word runs into an escaped line feed, a word ends before what the backslash is
part of, or nothing does. -/
lemma WordState.EscapesBreak.exists_runsInto (h : WordState.start.EscapesBreak t) :
    ∃ x y rest s', t = x ++ (y ++ '\n' :: rest) ∧ RunsInto x y s' := by
  obtain ⟨p, rest, s', rfl, hrun, hs'⟩ := h
  have hne : p ≠ [] := by
    rintro rfl
    obtain rfl := Option.some_inj.1 hrun
    simp at hs'
  obtain hcomplete | ⟨x, y, s₁, rfl, hy, hx, hstays, hcut⟩ :=
    WordState.isComplete_or_staysOpen hrun hne
  · obtain rfl | rfl := hs' <;> cases hcomplete
  · rw [WordState.run?_append, hx, Option.bind_some] at hrun
    refine ⟨x, y, rest, s', List.append_assoc x y _, ?_⟩
    obtain rfl | hcomplete := hcut
    · obtain rfl := Option.some_inj.1 hx
      exact ⟨.inl rfl, hstays, hrun, hs'⟩
    · -- what leaves a complete word open also begins one
      obtain ⟨c, y, rfl⟩ := List.exists_cons_of_ne_nil hy
      obtain ⟨s₂, hnext, hopen, hrest⟩ := hstays
      have hstart := (WordState.next?_start hcomplete hnext hopen).1
      refine ⟨.inr ⟨s₁, hx, hcomplete⟩, ⟨s₂, hstart, hopen, hrest⟩, ?_, hs'⟩
      rw [WordState.run?, hnext] at hrun
      rwa [WordState.run?, hstart]

namespace RunsInto

lemma opener (h : RunsInto x y s') :
    (∃ c v, y = c :: v ∧ (c = '\'' ∨ c = '"')) ∨ y = ['\\'] ∧ s' = .escape := by
  obtain ⟨-, hstays, hrun, hescapes⟩ := h
  rcases y with _ | ⟨c, v⟩
  · obtain rfl := Option.some_inj.1 hrun
    simp at hescapes
  obtain ⟨s₂, hnext, hopen, hrest⟩ := hstays
  rw [WordState.run?, hnext, Option.bind_some] at hrun
  have hc : c = '\'' ∨ c = '"' ∨ c = '\\' := by
    rw [WordState.next?] at hnext
    split at hnext
    · cases hnext
    · exact WordState.opener_of_piece? hnext hopen
  obtain hc | hc | rfl := hc
  · exact .inl ⟨c, v, rfl, .inl hc⟩
  · exact .inl ⟨c, v, rfl, .inr hc⟩
  · -- the character behind the backslash would complete a word
    obtain rfl : WordState.escape = s₂ := Option.some_inj.1 hnext
    rcases v with _ | ⟨d, v⟩
    · exact .inr ⟨rfl, (Option.some_inj.1 hrun).symm⟩
    · obtain ⟨s₃, hnext', hopen', -⟩ := hrest
      rw [WordState.next?] at hnext'
      split at hnext'
      · cases hnext'
      · obtain rfl := Option.some_inj.1 hnext'
        cases hopen'

lemma exists_cons (h : RunsInto x y s') :
    ∃ c v, y = c :: v ∧ (c = '\'' ∨ c = '"' ∨ c = '\\') := by
  obtain ⟨c, v, rfl, hc⟩ | ⟨rfl, -⟩ := h.opener
  · exact ⟨c, v, rfl, hc.imp_right .inl⟩
  · exact ⟨'\\', [], rfl, .inr (.inr rfl)⟩

lemma ne_nil (h : RunsInto x y s') : y ≠ [] := by
  obtain ⟨c, v, rfl, -⟩ := h.exists_cons
  exact List.cons_ne_nil c v

lemma getLast?_eq (h : RunsInto x y s') : y.getLast? = some '\\' := by
  obtain ⟨q, c, rfl⟩ := (List.eq_nil_or_concat' y).resolve_left h.ne_nil
  obtain ⟨s₂, -, hnext⟩ := WordState.exists_of_run?_concat h.run
  rw [eq_backslash_of_next? hnext h.escapes, List.getLast?_concat]

lemma alone (h : RunsInto x y s') : RunsInto [] y s' := ⟨.inl rfl, h.staysOpen, h.run, h.escapes⟩

lemma returned (h : RunsInto x y s') :
    RunsInto (withReturns x) (withReturns y) s' where
  complete := by
    obtain rfl | ⟨s₁, hrun, hs₁⟩ := h.complete
    · exact .inl rfl
    · exact .inr ⟨s₁, WordState.run?_withReturns hrun, hs₁⟩
  staysOpen := h.staysOpen.withReturns
  run := WordState.run?_withReturns h.run
  escapes := h.escapes

lemma wordExtent_eq (h : RunsInto x y s') (u : Text) :
    wordExtent (x ++ (y ++ u)) = wordExtentFrom s' x.length (x.length + y.length) u := by
  have hopen : wordExtentFrom .start x.length x.length (y ++ u) =
      wordExtentFrom s' x.length (x.length + y.length) u :=
    wordExtentFrom_of_staysOpen h.staysOpen h.run u
  rw [← hopen]
  obtain rfl | ⟨s₁, hx, hs₁⟩ := h.complete
  · rfl
  · have hne : x ≠ [] := by
      rintro rfl
      obtain rfl := Option.some_inj.1 hx
      cases hs₁
    obtain ⟨c, v, rfl, hc⟩ := h.exists_cons
    rw [wordExtent, WordState.wordExtentFrom_append_of_isComplete hx hs₁ hne, Nat.zero_add,
      List.cons_append, wordExtentFrom, wordExtentFrom, next?_opener hs₁ hc]

lemma wordExtent_feed (h : RunsInto x y s') (rest : Text) :
    wordExtent (x ++ (y ++ '\n' :: rest)) = ⟨x.length, x.length + y.length⟩ := by
  rw [h.wordExtent_eq]
  obtain rfl | rfl := h.escapes <;> rfl

/-- With a carriage return before the line feed a longer word is matched, or, between double quotes,
more is read than before. -/
lemma wordExtent_return (h : RunsInto x y s') (u : Text) :
    x.length < (wordExtent (x ++ (y ++ '\r' :: '\n' :: u))).matched ∨
      s' = .doubleEscape ∧ (wordExtent (x ++ (y ++ '\r' :: '\n' :: u))).matched = x.length ∧
        x.length + y.length + 2 ≤ (wordExtent (x ++ (y ++ '\r' :: '\n' :: u))).reached := by
  rw [h.wordExtent_eq]
  obtain rfl | rfl := h.escapes
  · have hextent : wordExtentFrom .escape x.length (x.length + y.length) ('\r' :: '\n' :: u) =
        ⟨x.length + y.length + 1, x.length + y.length + 1⟩ := rfl
    rw [hextent]
    exact .inl (by simp only; omega)
  · have hextent : wordExtentFrom .doubleEscape x.length (x.length + y.length) ('\r' :: '\n' :: u) =
        wordExtentFrom .double x.length (x.length + y.length + 2) u := rfl
    rw [hextent]
    obtain hsame | ⟨v, -, -, hmatched, -⟩ :=
      @accepts_of_matched .double u x.length (x.length + y.length + 2)
    · exact .inr ⟨rfl, hsame, le_reached⟩
    · exact .inl (by omega)

lemma munchWord_eq (h : RunsInto x y s') (hx : x ≠ []) (rest : Text) :
    munchWord (x ++ (y ++ '\n' :: rest)) = ⟨some .word, x.length⟩ := by
  rw [munchWord, h.wordExtent_feed, if_neg (by simpa using hx)]

lemma munchWord_alone (h : RunsInto x y s') (rest : Text) :
    munchWord (y ++ '\n' :: rest) = ⟨some .unexpected, y.length⟩ := by
  have hextent : wordExtent (y ++ '\n' :: rest) = ⟨0, 0 + y.length⟩ := h.alone.wordExtent_feed rest
  have hpos := List.length_pos_iff.2 h.ne_nil
  rw [munchWord, hextent, if_pos rfl, Nat.zero_add, max_eq_right hpos]

lemma munch_alone (h : RunsInto x y s') (hy : y ≠ ['\\']) (u : Text) :
    munch (y ++ u) = munchWord (y ++ u) := by
  obtain ⟨c, v, rfl, rfl | rfl⟩ | ⟨rfl, -⟩ := h.opener
  · rfl
  · rfl
  · exact absurd rfl hy

end RunsInto

lemma ne_backslash_of_munchWord
    (hword : munch (y ++ '\n' :: rest) = munchWord (y ++ '\n' :: rest)) : y ≠ ['\\'] := by
  rintro rfl
  have hkind := kind?_munchWord (['\\'] ++ '\n' :: rest)
  rw [← hword] at hkind
  rcases hkind with hkind | hkind <;> cases hkind

/-- What is read of a word reaches to where the word cannot go on. -/
lemma exists_run?_reached : ∃ x y s', t = x ++ y ∧
    (wordExtentFrom s matched reached t).reached = reached + x.length ∧ s.run? x = some s' ∧
      ∀ c, y.head? = some c → s'.next? c = none := by
  induction t generalizing s matched reached with
  | nil => exact ⟨[], [], s, rfl, rfl, rfl, by simp⟩
  | cons c t ih =>
    rw [wordExtentFrom]
    cases hnext : s.next? c with
    | none => exact ⟨[], c :: t, s, rfl, rfl, rfl, by simpa using hnext⟩
    | some s₁ =>
      obtain ⟨x, y, s', rfl, hreached, hrun, hstop⟩ :=
        @ih s₁ (if s₁.isComplete then reached + 1 else matched) (reached + 1)
      refine ⟨c :: x, y, s', rfl, ?_, ?_, hstop⟩
      · rw [List.length_cons, Nat.add_comm x.length, ← Nat.add_assoc]
        exact hreached
      · rw [WordState.run?, hnext]
        exact hrun

/-- An unexpected token is what has been read of a word, or a character that begins none. -/
lemma run?_of_unexpected (h : munchWord (x ++ y) = ⟨some .unexpected, x.length⟩) :
    (∃ c, x = [c] ∧ WordState.start.next? c = none) ∨
      ∃ s', WordState.start.run? x = some s' ∧ ∀ c, y.head? = some c → s'.next? c = none := by
  obtain ⟨p, r, s', hsplit, hreached, hrun, hstop⟩ := @exists_run?_reached .start (x ++ y) 0 0
  have hsize : max 1 p.length = x.length := by
    rw [munchWord] at h
    split at h
    · have hsize := congrArg Munch.size h
      rwa [wordExtent, hreached, Nat.zero_add] at hsize
    · cases congrArg Munch.kind? h
  rcases p with _ | ⟨c, p⟩
  · obtain ⟨c, rfl⟩ := List.length_eq_one_iff.1 hsize.symm
    obtain rfl := Option.some_inj.1 hrun
    have hr : r = c :: y := hsplit.symm
    exact .inl ⟨c, rfl, hstop c (by rw [hr]; rfl)⟩
  · obtain ⟨rfl, rfl⟩ := List.append_inj hsplit (by rw [← hsize, List.length_cons]; omega)
    exact .inr ⟨s', hrun, hstop⟩

/-- A backslash before a line feed that ends an incomplete word waits for a character. -/
lemma escapes_of_next? (h : s.next? '\\' = some s') (hopen : s'.isComplete = false)
    (hstop : s'.next? '\n' = none) : s' = .escape ∨ s' = .doubleEscape := by
  cases s with
  | start | bare angle => exact .inl (Option.some_inj.1 h).symm
  | double => exact .inr (Option.some_inj.1 h).symm
  | escape =>
    obtain rfl : WordState.bare false = s' := Option.some_inj.1 h
    cases hopen
  | single =>
    obtain rfl : WordState.single = s' := Option.some_inj.1 h
    cases hstop
  | doubleEscape =>
    obtain rfl : WordState.double = s' := Option.some_inj.1 h
    cases hstop

/-- A token that escapes a line feed is found by reading a word that runs into the line feed. -/
lemma escapesBreak_of_munch {kind : TokenKind} {offset : Nat} (hne : x ≠ [])
    (hmunch : munch (x ++ y) = ⟨some kind, x.length⟩)
    (h : Token.escapesBreak ⟨kind, x, offset⟩ y = true) :
    munch (x ++ y) = munchWord (x ++ y) ∧ WordState.start.EscapesBreak (x ++ y) := by
  have hnil : x ++ y ≠ [] := by simp [hne]
  cases kind with
  | word =>
    refine ⟨munch_eq_munchWord (.inl (by rw [hmunch])), ?_⟩
    obtain ⟨rest, rfl⟩ := List.isPrefixOf_iff_prefix.1 h
    have hlongest := (munch_longest hnil).matched .word (by rw [hmunch]) TokenKind.noConfusion
    rw [hmunch, List.take_left] at hlongest
    obtain ⟨s, hrun, hs⟩ := WordState.accepts_iff.2 hlongest
    refine ⟨x ++ ['\\'], rest, .escape, by simp, ?_, .inl rfl⟩
    rw [WordState.run?_append, hrun, Option.bind_some, WordState.run?,
      next?_opener hs (.inr (.inr rfl))]
    rfl
  | unexpected =>
    have hword := munch_eq_munchWord (.inr (by rw [hmunch]))
    refine ⟨hword, ?_⟩
    simp only [Token.escapesBreak, Bool.and_eq_true, beq_iff_eq] at h
    obtain ⟨hlast, hfeed⟩ := h
    obtain ⟨rest, rfl⟩ := List.isPrefixOf_iff_prefix.1 hfeed
    obtain ⟨q, rfl⟩ := List.getLast?_eq_some_iff.1 hlast
    have hnone := (munch_longest hnil).unexpected (by rw [hmunch]) (q ++ ['\\'])
      (List.prefix_append _ _) hne
    obtain ⟨s', hrun, hstop⟩ : ∃ s', WordState.start.run? (q ++ ['\\']) = some s' ∧
        ∀ c, (['\n'] ++ rest).head? = some c → s'.next? c = none := by
      refine (run?_of_unexpected (hword.symm.trans hmunch)).resolve_left ?_
      rintro ⟨c, hc, hnext⟩
      obtain ⟨-, hc⟩ := List.append_inj' (show q ++ ['\\'] = [] ++ [c] from hc) rfl
      obtain rfl := List.singleton_inj.1 hc
      cases hnext
    refine ⟨q ++ ['\\'], rest, s', rfl, hrun, ?_⟩
    have hopen : s'.isComplete = false := by
      by_contra hcomplete
      rw [Bool.not_eq_false] at hcomplete
      exact hnone (.inr ⟨.word, WordState.accepts_iff.1 ⟨s', hrun, hcomplete⟩⟩)
    obtain ⟨s₂, -, hnext⟩ := WordState.exists_of_run?_concat hrun
    exact escapes_of_next? hnext hopen (hstop '\n' rfl)
  | _ => cases h

end Escaped

/-! ## Tokens -/

section Tokens

variable {t u x y rest : Text} {kind? : Option TokenKind} {tok : Token} {offset : Nat}

lemma tokensFrom_append_of_munch (hne : x ≠ []) (h : munch (x ++ y) = ⟨kind?, x.length⟩)
    (offset : Nat) : tokensFrom 0 offset (x ++ y) =
      (kind?.map fun kind => ⟨kind, x, offset⟩).toList ++
        tokensFrom 0 (offset + x.byteLength) y := by
  rw [tokensFrom_munch (by simp [hne]), h]
  simp only [List.take_left, List.drop_left]

lemma unescaped_append_iff (hne : x ≠ []) (hmunch : munch (x ++ y) = ⟨kind?, x.length⟩) :
    Unescaped offset (x ++ y) ↔
      (∀ kind, kind? = some kind → Token.escapesBreak ⟨kind, x, offset⟩ y = false) ∧
        Unescaped (offset + x.byteLength) y := by
  have hbehind : ∀ tok ∈ tokensFrom 0 (offset + x.byteLength) y,
      Text.skipBytes? (tok.stop - offset) (x ++ y) =
        Text.skipBytes? (tok.stop - (offset + x.byteLength)) y := by
    intro tok htok
    obtain ⟨a, b, -, hstart⟩ := mem_tokensFrom htok
    have hstop : tok.stop - offset = x.byteLength + (tok.stop - (offset + x.byteLength)) := by
      rw [Token.stop, hstart]
      omega
    rw [hstop, Text.skipBytes?_add]
  rw [Unescaped, Unescaped, tokensFrom_append_of_munch hne hmunch, List.forall_mem_append]
  refine and_congr ?_ (forall₂_congr fun tok htok => by rw [hbehind tok htok])
  cases kind? with
  | none => simp
  | some kind => simp [Token.stop, Text.skipBytes?_byteLength]

lemma RunsInto.not_unescaped {s' : WordState} (h : RunsInto x y s')
    (hword : munch (x ++ (y ++ '\n' :: rest)) = munchWord (x ++ (y ++ '\n' :: rest))) :
    ¬ Unescaped offset (x ++ (y ++ '\n' :: rest)) := by
  have halone : y ≠ ['\\'] → ∀ offset, ¬ Unescaped offset (y ++ '\n' :: rest) := by
    intro hy offset hfree
    have hmunch := (h.munch_alone hy _).trans (h.munchWord_alone rest)
    have hfirst := ((unescaped_append_iff h.ne_nil hmunch).1 hfree).1 _ rfl
    simp [Token.escapesBreak, h.getLast?_eq] at hfirst
  intro hfree
  by_cases hx : x = []
  · subst hx
    exact halone (ne_backslash_of_munchWord hword) _ hfree
  · obtain ⟨hfirst, hrest⟩ :=
      (unescaped_append_iff hx (hword.trans (h.munchWord_eq hx rest))).1 hfree
    by_cases hy : y = ['\\']
    · subst hy
      cases hfirst _ rfl
    · exact halone hy _ hrest

/-- What a token is, apart from its place and from the carriage returns in it. -/
def Token.reading (tok : Token) : TokenKind × Text := (tok.kind, withoutReturns tok.text)

lemma head?_readings {kind : TokenKind} {n : Nat} (hne : t ≠ []) (h : munch t = ⟨some kind, n⟩)
    (offset : Nat) : ((tokensFrom 0 offset t).map Token.reading).head? =
      some (kind, withoutReturns (t.take n)) := by
  rw [tokensFrom_munch hne, h]
  rfl

/-- What stays open between double quotes is read on behind the carriage return and the line
feed. -/
lemma RunsInto.readings_alone_ne {s' : WordState} (h : RunsInto [] y s') (hy : y ≠ ['\\'])
    (offset offset' : Nat) :
    (tokensFrom 0 offset' (withReturns (y ++ '\n' :: rest))).map Token.reading ≠
      (tokensFrom 0 offset (y ++ '\n' :: rest)).map Token.reading := by
  have hmunch := (h.munch_alone hy ('\n' :: rest)).trans (h.munchWord_alone rest)
  have hreturns := h.returned
  have hy' : withReturns y ≠ ['\\'] := by
    obtain ⟨c, v, rfl, hc⟩ := h.opener.resolve_right fun h => hy h.1
    have hfeed : c ≠ '\n' := by
      rintro rfl
      simp at hc
    rw [withReturns_cons hfeed]
    rintro heq
    obtain ⟨rfl, -⟩ := List.cons.inj heq
    simp at hc
  have hword := hreturns.munch_alone hy' ('\r' :: '\n' :: withReturns rest)
  intro heq
  have hhead := congrArg List.head? heq
  rw [head?_readings (by simp) hmunch, List.take_left, withReturns_append,
    withReturns_feed] at hhead
  have hextent := hreturns.wordExtent_return (withReturns rest)
  rw [withReturns_nil, List.nil_append, List.length_nil, Nat.zero_add] at hextent
  rw [munchWord] at hword
  obtain hlonger | ⟨-, hzero, hreached⟩ := hextent
  · rw [if_neg hlonger.ne'] at hword
    rw [head?_readings (by simp) hword] at hhead
    cases congrArg Prod.fst (Option.some_inj.1 hhead)
  · rw [if_pos hzero] at hword
    rw [head?_readings (by simp) hword] at hhead
    -- the line feed is part of the token now
    have htext := congrArg Prod.snd (Option.some_inj.1 hhead)
    have hsame : withoutReturns (withReturns y ++ ['\r']) = withoutReturns y := by
      rw [← withoutReturns_withReturns y]
      simp [withoutReturns]
    have hmore := @withoutReturns_ne (withReturns y ++ ['\r']) (withReturns rest) '\n'
      (max 1 (wordExtent (withReturns y ++ '\r' :: '\n' :: withReturns rest)).reached) (by decide)
      (by rw [List.length_append, List.length_singleton]; omega)
    rw [List.append_assoc, List.singleton_append, hsame] at hmore
    exact hmore htext

/-- Where reading a word runs into an escaped line feed, another token is read with carriage
returns. -/
lemma RunsInto.readings_ne {s' : WordState} (h : RunsInto x y s')
    (hword : munch (x ++ (y ++ '\n' :: rest)) = munchWord (x ++ (y ++ '\n' :: rest)))
    (hreturn : '\r' ∉ x ++ (y ++ '\n' :: rest)) (offset offset' : Nat) :
    (tokensFrom 0 offset' (withReturns (x ++ (y ++ '\n' :: rest)))).map Token.reading ≠
      (tokensFrom 0 offset (x ++ (y ++ '\n' :: rest))).map Token.reading := by
  by_cases hx : x = []
  · subst hx
    exact h.readings_alone_ne (ne_backslash_of_munchWord hword) _ _
  have hmunch := hword.trans (h.munchWord_eq hx rest)
  have hword' := munch_withReturns_eq_munchWord hreturn hword
  have hx' : withReturns x ≠ [] := List.ne_nil_of_length_pos (length_withReturns_pos hx)
  rw [withReturns_append, withReturns_append, withReturns_feed] at hword' ⊢
  intro heq
  rw [munchWord] at hword'
  obtain hlonger | ⟨rfl, hsame, -⟩ := h.returned.wordExtent_return (withReturns rest)
  · -- a longer word is read
    rw [if_neg (Nat.ne_zero_of_lt hlonger)] at hword'
    have hhead := congrArg List.head? heq
    rw [head?_readings (by simp [hx]) hmunch, head?_readings (by simp [hx']) hword',
      List.take_left] at hhead
    have htext := congrArg Prod.snd (Option.some_inj.1 hhead)
    obtain ⟨c, v, hv, hc⟩ := h.returned.exists_cons
    rw [← withoutReturns_withReturns x] at htext
    rw [hv, List.cons_append] at hlonger htext
    refine withoutReturns_ne ?_ hlonger htext
    rintro rfl
    simp at hc
  · -- the same word is read, and something else behind it
    rw [if_neg (by rw [hsame]; simpa using hx'), hsame] at hword'
    rw [tokensFrom_append_of_munch hx hmunch, tokensFrom_append_of_munch hx' hword'] at heq
    have hbehind := (List.cons.inj heq).2
    rw [← withReturns_feed, ← withReturns_append] at hbehind
    refine h.alone.readings_alone_ne ?_ _ _ hbehind
    rintro rfl
    cases h.run

/-- The second text is the first with carriage returns, or it lacks the one before a line feed with
which the first begins. -/
def Returned (t t' : Text) : Prop :=
  t' = withReturns t ∨ ∃ u, t = '\n' :: u ∧ t' = '\n' :: withReturns u

/-- The same stands at the start of the two texts, carriage returns apart, and what follows it
differs by carriage returns again. -/
inductive MunchAlike : Text → Text → Prop
  | intro {kind? : Option TokenKind} {x x' y y' : Text} (hx : x ≠ []) (hx' : x' ≠ [])
    (hmunch : munch (x ++ y) = ⟨kind?, x.length⟩) (hmunch' : munch (x' ++ y') = ⟨kind?, x'.length⟩)
    (hsame : withoutReturns x' = withoutReturns x) (h : Returned y y') :
    MunchAlike (x ++ y) (x' ++ y')

/-- A comment takes in the carriage return before the end of its line. -/
lemma munchAlike_of_comment (h : (munch t).kind? = some .comment) :
    MunchAlike t (withReturns t) := by
  obtain ⟨v, rfl, -⟩ := munch_comment h
  obtain ⟨w, y, rfl, hw, hy⟩ : ∃ w y, v = w ++ y ∧ (∀ c ∈ w, c ≠ '\n') ∧
      (y = [] ∨ ∃ u, y = '\n' :: u) := by
    refine ⟨v.takeWhile (· != '\n'), v.dropWhile (· != '\n'),
      (List.takeWhile_append_dropWhile).symm, fun c hc => ?_, ?_⟩
    · simpa using List.mem_takeWhile_imp (p := (· != '\n')) hc
    · rcases hrest : v.dropWhile (· != '\n') with _ | ⟨c, u⟩
      · exact .inl rfl
      · obtain rfl := head?_dropWhile_ne '\n' v c (by rw [hrest]; rfl)
        exact .inr ⟨u, rfl⟩
  have hline : withReturns ('#' :: (w ++ y)) = '#' :: w ++ withReturns y := by
    rw [withReturns_cons (by decide), withReturns_append, withReturns_eq_self hw, List.cons_append]
  rw [hline, ← List.cons_append]
  obtain rfl | ⟨u, rfl⟩ := hy
  · exact .intro (by simp) (by simp) (munch_hash hw (by simp)) (munch_hash hw (by simp)) rfl
      (.inl rfl)
  · have hw' : ∀ c ∈ w ++ ['\r'], c ≠ '\n' := by
      intro c hc
      rcases List.mem_append.1 hc with hc | hc
      · exact hw c hc
      · rw [List.mem_singleton.1 hc]
        decide
    have hsplit : '#' :: w ++ withReturns ('\n' :: u) =
        '#' :: (w ++ ['\r']) ++ '\n' :: withReturns u := by
      simp
    rw [hsplit]
    exact .intro (by simp) (by simp) (munch_hash hw (by simp)) (munch_hash hw' (by simp))
      (by simp [withoutReturns]) (.inr ⟨u, rfl, rfl⟩)

/-- Carriage returns change nothing at the start of a text if a word that is read there does not run
into an escaped line feed. -/
theorem Returned.munchAlike {t' : Text} (h : Returned t t') (hne : t ≠ []) (hreturn : '\r' ∉ t)
    (hescapes : munch t = munchWord t → ¬ WordState.start.EscapesBreak t) : MunchAlike t t' := by
  obtain rfl | ⟨u, rfl, rfl⟩ := h
  · by_cases hcomment : (munch t).kind? = some .comment
    · exact munchAlike_of_comment hcomment
    · have htake : t.take (munch t).size ≠ [] := by
        rw [Ne, List.take_eq_nil_iff, not_or]
        exact ⟨(munch_size_pos hne).ne', hne⟩
      have hmunch := munch_withReturns hreturn hcomment hescapes hne
      have hlength : (t.take (munch t).size).length = (munch t).size := by
        rw [List.length_take, min_eq_left (munch_size_le hne)]
      have hsplit := List.take_append_drop (munch t).size t
      have halike : MunchAlike (t.take (munch t).size ++ t.drop (munch t).size)
          (withReturns (t.take (munch t).size) ++ withReturns (t.drop (munch t).size)) := by
        have hfirst : munch (t.take (munch t).size ++ t.drop (munch t).size) =
            ⟨(munch t).kind?, (t.take (munch t).size).length⟩ := by
          rw [hsplit, hlength]
        refine .intro htake ?_ hfirst ?_ (withoutReturns_withReturns _) (.inl rfl)
        · exact List.ne_nil_of_length_pos (length_withReturns_pos htake)
        · rw [← withReturns_append, hsplit, hmunch]
      rwa [← withReturns_append, hsplit] at halike
  · have hfeed (v : Text) : munch (['\n'] ++ v) = ⟨some .newline, 1⟩ := rfl
    exact .intro (by simp) (by simp) (hfeed u) (hfeed (withReturns u)) rfl (.inl rfl)

/-- The same tokens are read with carriage returns exactly if none escapes a line feed. -/
theorem Returned.unescaped_iff {t' : Text} (h : Returned t t') (hreturn : '\r' ∉ t)
    (offset offset' : Nat) : Unescaped offset t ↔
      (tokensFrom 0 offset' t').map Token.reading = (tokensFrom 0 offset t).map Token.reading := by
  induction hlength : t.length using Nat.strong_induction_on generalizing t t' offset offset' with
  | _ n ih =>
    by_cases hne : t = []
    · subst hne
      obtain rfl | ⟨u, hu, -⟩ := h
      · exact iff_of_true (by simp [Unescaped, tokensFrom]) rfl
      · cases hu
    by_cases hescapes : munch t = munchWord t ∧ WordState.start.EscapesBreak t
    · obtain ⟨hword, hescapes⟩ := hescapes
      obtain ⟨x, y, rest, s', rfl, hruns⟩ := hescapes.exists_runsInto
      refine iff_of_false (hruns.not_unescaped hword) ?_
      obtain rfl | ⟨u, hu, -⟩ := h
      · exact hruns.readings_ne hword hreturn _ _
      · -- no word is read at the end of a line
        have hkind := kind?_munchWord ('\n' :: u)
        rw [← hu, ← hword, hu] at hkind
        rcases hkind with hkind | hkind <;> cases hkind
    · obtain ⟨hx, hx', hmunch, hmunch', hsame, hrest⟩ :=
        h.munchAlike hne hreturn (not_and.1 hescapes)
      rename_i kind? x x' y y'
      have hlt : y.length < n := by
        have hpos := List.length_pos_iff.2 hx
        rw [List.length_append] at hlength
        omega
      have hbehind := ih y.length hlt hrest (fun hmem => hreturn (List.mem_append_right x hmem))
        (offset + x.byteLength) (offset' + x'.byteLength) rfl
      rw [unescaped_append_iff hx hmunch, hbehind, tokensFrom_append_of_munch hx hmunch,
        tokensFrom_append_of_munch hx' hmunch', List.map_append, List.map_append]
      cases kind? with
      | none => simp
      | some kind =>
        have hfirst : Token.escapesBreak ⟨kind, x, offset⟩ y = false := by
          by_contra hescape
          exact hescapes (escapesBreak_of_munch hx hmunch (by simpa using hescape))
        simp [hfirst, Token.reading, hsame]

end Tokens

/-- A source without carriage returns is read as tokens of the same kinds when a carriage return is
put before every line feed, if no token escapes a line feed. Exactly then the texts of the tokens
are the same, too, carriage returns apart. -/
theorem tokens_withReturns (source : Text) (hreturn : '\r' ∉ source) :
    (Unescaped 0 source →
      (tokens (withReturns source)).map Token.kind = (tokens source).map Token.kind) ∧
    (Unescaped 0 source ↔
      (tokens (withReturns source)).map Token.reading = (tokens source).map Token.reading) := by
  have hiff : Unescaped 0 source ↔
      (tokens (withReturns source)).map Token.reading = (tokens source).map Token.reading :=
    Returned.unescaped_iff (.inl rfl) hreturn 0 0
  refine ⟨fun hfree => ?_, hiff⟩
  have hkinds := congrArg (List.map Prod.fst) (hiff.1 hfree)
  rwa [List.map_map, List.map_map] at hkinds

/-- A line goes on where no word stands before the backslash; a line feed in quotes, one behind a
comment and one behind an unclosed quote change nothing. -/
theorem tokens_withReturns_continued :
    let source := "a \\\n'b\\\n'\\\\ # c\\\n\n\"d\n\\\"\\".toList
    '\r' ∉ source ∧ Unescaped 0 source ∧
      (tokens (withReturns source)).map Token.kind = (tokens source).map Token.kind ∧
      (tokens (withReturns source)).map Token.reading = (tokens source).map Token.reading := by
  have hfree : Unescaped 0 "a \\\n'b\\\n'\\\\ # c\\\n\n\"d\n\\\"\\".toList := by
    unfold Unescaped
    decide +kernel
  obtain ⟨hkinds, hreadings⟩ := tokens_withReturns
    "a \\\n'b\\\n'\\\\ # c\\\n\n\"d\n\\\"\\".toList (by decide)
  exact ⟨by decide, hfree, hkinds hfree, hreadings.1 hfree⟩

/-- The carriage return behind a word and a backslash is taken for a character of the word, and the
line, which went on, ends there. -/
theorem exists_kinds_withReturns_ne : ∃ source : Text, '\r' ∉ source ∧
    (tokens source).map Token.kind = [.word, .word] ∧
    (tokens (withReturns source)).map Token.kind = [.word, .newline, .word] :=
  ⟨"a\\\nb".toList, by decide, by decide +kernel, by decide +kernel⟩

end FishScript
