/-
# Carriage returns before line feeds

A text with a carriage return put before each line feed (`withReturns`). What stands at the start of
a text stands there also with carriage returns (`munch_withReturns`), unless it is a comment, which
takes the first carriage return behind it in, or reading a word runs into a line feed behind a
backslash (`EscapesBreak`).
-/
import Mathlib
import FishScript.Proofs.Token.Munching

namespace FishScript

/-! ## Carriage returns before line feeds -/

/-- A text with a carriage return put before each line feed. -/
def withReturns (t : Text) : Text := t.flatMap fun c => if c = '\n' then ['\r', '\n'] else [c]

/-- A text without its carriage returns. -/
def withoutReturns (t : Text) : Text := t.filter (· != '\r')

section WithReturns

variable {t u : Text} {c : Char}

@[simp] lemma withReturns_nil : withReturns [] = [] := rfl

@[simp] lemma withReturns_feed (t : Text) :
    withReturns ('\n' :: t) = '\r' :: '\n' :: withReturns t := rfl

lemma withReturns_cons (hc : c ≠ '\n') : withReturns (c :: t) = c :: withReturns t := by
  rw [withReturns, List.flatMap_cons, if_neg hc]
  rfl

@[simp] lemma withReturns_append (t u : Text) :
    withReturns (t ++ u) = withReturns t ++ withReturns u := List.flatMap_append

lemma withReturns_eq_self (h : ∀ c ∈ t, c ≠ '\n') : withReturns t = t := by
  induction t with
  | nil => rfl
  | cons c t ih =>
    obtain ⟨hc, ht⟩ := List.forall_mem_cons.1 h
    rw [withReturns_cons hc, ih ht]

lemma withReturns_ne_feed (t u : Text) : withReturns t ≠ '\n' :: u := by
  rcases t with _ | ⟨c, t⟩
  · simp
  · by_cases hc : c = '\n'
    · subst hc
      simp
    · rw [withReturns_cons hc]
      simp [hc]

lemma withReturns_ne_cons (hc : c ≠ '\r') (h : ∀ u, t ≠ c :: u) (u : Text) :
    withReturns t ≠ c :: u := by
  intro heq
  rcases t with _ | ⟨d, t⟩
  · cases heq
  · by_cases hd : d = '\n'
    · subst hd
      exact hc (List.cons.inj heq).1.symm
    · rw [withReturns_cons hd] at heq
      obtain ⟨rfl, -⟩ := List.cons.inj heq
      exact h t rfl

lemma withReturns_ne_return (hreturn : '\r' ∉ t) (h : ∀ u, t ≠ '\n' :: u) (u : Text) :
    withReturns t ≠ '\r' :: u := by
  intro heq
  rcases t with _ | ⟨d, t⟩
  · cases heq
  · by_cases hd : d = '\n'
    · subst hd
      exact h t rfl
    · rw [withReturns_cons hd] at heq
      obtain ⟨rfl, -⟩ := List.cons.inj heq
      exact hreturn List.mem_cons_self

lemma withoutReturns_withReturns (t : Text) :
    withoutReturns (withReturns t) = withoutReturns t := by
  induction t with
  | nil => rfl
  | cons c t ih =>
    by_cases hc : c = '\n'
    · subst hc
      exact congrArg ('\n' :: ·) ih
    · rw [withReturns_cons hc]
      simp only [withoutReturns, List.filter_cons] at ih ⊢
      rw [ih]

/-- What begins with a text and goes on with something else than a carriage return is more than the
text. -/
lemma withoutReturns_ne {n : Nat} (hc : c ≠ '\r') (hn : t.length < n) :
    withoutReturns ((t ++ c :: u).take n) ≠ withoutReturns t := by
  obtain ⟨k, rfl⟩ : ∃ k, n = t.length + (k + 1) := ⟨n - t.length - 1, by omega⟩
  rw [List.take_length_add_append, List.take_succ_cons]
  intro heq
  have hlength := congrArg List.length heq
  simp [withoutReturns, hc] at hlength

lemma takeWhile_isSpace_withReturns (t : Text) :
    (withReturns t).takeWhile isSpace = t.takeWhile isSpace := by
  induction t with
  | nil => rfl
  | cons c t ih =>
    by_cases hc : c = '\n'
    · subst hc
      rfl
    · rw [withReturns_cons hc, List.takeWhile_cons, List.takeWhile_cons, ih]

end WithReturns

/-! ## Words -/

namespace WordState

/-- Reading a word from the state on runs into a line feed behind a backslash. -/
def EscapesBreak (s : WordState) (t : Text) : Prop :=
  ∃ p rest s', t = p ++ '\n' :: rest ∧ s.run? p = some s' ∧ (s' = .escape ∨ s' = .doubleEscape)

variable {s s' : WordState} {t : Text} {c : Char}

lemma EscapesBreak.cons (hnext : s.next? c = some s') (h : s'.EscapesBreak t) :
    s.EscapesBreak (c :: t) := by
  obtain ⟨p, rest, s₁, rfl, hrun, hs₁⟩ := h
  refine ⟨c :: p, rest, s₁, rfl, ?_, hs₁⟩
  rw [run?, hnext]
  exact hrun

/-- A word takes a line feed in between quotes only, where it takes a carriage return in as well. -/
lemma eq_of_next?_feed (h : s.next? '\n' = some s') :
    s' = s ∧ s.next? '\r' = some s ∧ s.isComplete = false := by
  cases hs : s.isQuoted with
  | false =>
    rw [next?_newline hs] at h
    cases h
  | true =>
    cases s with
    | single | double => exact ⟨(Option.some_inj.1 h).symm, rfl, rfl⟩
    | _ => cases hs

/-- Where a line feed ends a word a carriage return does, too, if it is not escaped. -/
lemma next?_return (h : s.next? '\n' = none) :
    s.next? '\r' = none ∨ s = .escape ∨ s = .doubleEscape := by
  cases s with
  | start => exact .inl rfl
  | bare angle => exact .inl rfl
  | escape => exact .inr (.inl rfl)
  | doubleEscape => exact .inr (.inr rfl)
  | _ => cases h

lemma run?_withReturns (h : s.run? t = some s') : s.run? (withReturns t) = some s' := by
  induction t generalizing s with
  | nil => exact h
  | cons c t ih =>
    obtain ⟨s₁, hnext, hrun⟩ := Option.bind_eq_some_iff.1 h
    by_cases hc : c = '\n'
    · subst hc
      obtain ⟨rfl, hreturn, -⟩ := eq_of_next?_feed hnext
      rw [withReturns_feed, run?, hreturn, Option.bind_some, run?, hnext]
      exact ih hrun
    · rw [withReturns_cons hc, run?, hnext]
      exact ih hrun

lemma StaysOpen.withReturns (h : s.StaysOpen t) : s.StaysOpen (withReturns t) := by
  induction t generalizing s with
  | nil => exact h
  | cons c t ih =>
    obtain ⟨s₁, hnext, hopen, hrest⟩ := h
    by_cases hc : c = '\n'
    · subst hc
      obtain ⟨rfl, hreturn, -⟩ := eq_of_next?_feed hnext
      exact ⟨s₁, hreturn, hopen, s₁, hnext, hopen, ih hrest⟩
    · rw [withReturns_cons hc]
      exact ⟨s₁, hnext, hopen, ih hrest⟩

end WordState

/-- The extent of a word that runs into no escaped line feed goes the same way when carriage returns
are put before the line feeds in it: `x` is what has been matched, `y` what has been read. -/
lemma wordExtentFrom_withReturns {s : WordState} {t : Text} (h : ¬ s.EscapesBreak t) (x y : Text) :
    ∃ x' y', (x' = x ∨ x' <+: y ++ t) ∧ y' <+: y ++ t ∧
      wordExtentFrom s x.length y.length t = ⟨x'.length, y'.length⟩ ∧
      wordExtentFrom s (withReturns x).length (withReturns y).length (withReturns t) =
        ⟨(withReturns x').length, (withReturns y').length⟩ := by
  induction t generalizing s x y with
  | nil => exact ⟨x, y, .inl rfl, by simp, rfl, rfl⟩
  | cons c t ih =>
    cases hnext : s.next? c with
    | none =>
      refine ⟨x, y, .inl rfl, List.prefix_append _ _, by rw [wordExtentFrom, hnext], ?_⟩
      by_cases hc : c = '\n'
      · subst hc
        obtain hreturn | hescape := WordState.next?_return hnext
        · rw [withReturns_feed, wordExtentFrom, hreturn]
        · exact absurd ⟨[], t, s, rfl, rfl, hescape⟩ h
      · rw [withReturns_cons hc, wordExtentFrom, hnext]
    | some s' =>
      obtain ⟨x', y', hx', hy', heq, heq'⟩ := ih (fun hesc => h (hesc.cons hnext))
        (if s'.isComplete then y ++ [c] else x) (y ++ [c])
      rw [List.append_assoc, List.singleton_append] at hx' hy'
      refine ⟨x', y', ?_, hy', ?_, ?_⟩
      · obtain rfl | hx' := hx'
        · split
          · exact .inr ⟨t, by simp⟩
          · exact .inl rfl
        · exact .inr hx'
      · rw [wordExtentFrom, hnext, ← heq]
        simp only [apply_ite List.length, List.length_append, List.length_singleton]
      · by_cases hc : c = '\n'
        · -- between quotes nothing is matched on the way
          subst hc
          obtain ⟨rfl, hreturn, hopen⟩ := WordState.eq_of_next?_feed hnext
          simp only [hopen, Bool.false_eq_true, if_false, withReturns_append, withReturns_feed,
            withReturns_nil, List.length_append] at heq'
          rw [withReturns_feed, wordExtentFrom, hreturn, ← heq']
          simp only [hopen, Bool.false_eq_true, if_false]
          rw [wordExtentFrom, hnext]
          simp only [hopen, Bool.false_eq_true, if_false]
          rfl
        · have hone : withReturns (y ++ [c]) = withReturns y ++ [c] := by
            rw [withReturns_append, withReturns_cons hc, withReturns_nil]
          rw [withReturns_cons hc, wordExtentFrom, hnext, ← heq', apply_ite withReturns, hone]
          simp only [apply_ite List.length, List.length_append, List.length_singleton]

lemma length_withReturns_pos {t : Text} (hne : t ≠ []) : 0 < (withReturns t).length := by
  obtain ⟨c, t, rfl⟩ := List.exists_cons_of_ne_nil hne
  by_cases hc : c = '\n'
  · simp [hc]
  · simp [withReturns_cons hc]

/-- What is read as a word, or might have become one, is so also with carriage returns. -/
lemma munchWord_withReturns {c : Char} {t : Text} (hc : c ≠ '\n')
    (h : ¬ WordState.start.EscapesBreak (c :: t)) :
    munchWord (withReturns (c :: t)) = ⟨(munchWord (c :: t)).kind?,
      (withReturns ((c :: t).take (munchWord (c :: t)).size)).length⟩ := by
  obtain ⟨x, y, hx, hy, heq, heq'⟩ := wordExtentFrom_withReturns h [] []
  have hextent : wordExtent (c :: t) = ⟨x.length, y.length⟩ := heq
  have hextent' : wordExtent (withReturns (c :: t)) =
      ⟨(withReturns x).length, (withReturns y).length⟩ := heq'
  have htake : ∀ z : Text, z <+: c :: t → (c :: t).take z.length = z := fun z hz =>
    (List.prefix_iff_eq_take.1 hz).symm
  rw [munchWord, munchWord, hextent, hextent']
  by_cases hnil : x = []
  · subst hnil
    simp only [withReturns_nil, List.length_nil, if_true]
    by_cases hy' : y = []
    · -- one character is taken that begins nothing
      subst hy'
      simp [withReturns_cons hc]
    · have hpos : 1 ≤ y.length := List.length_pos_iff.2 hy'
      have hpos' : 1 ≤ (withReturns y).length := length_withReturns_pos hy'
      rw [max_eq_right hpos, max_eq_right hpos', htake y hy]
  · have hpos : (withReturns x).length ≠ 0 := Nat.ne_of_gt (length_withReturns_pos hnil)
    simp only [if_neg hpos, if_neg (mt List.length_eq_zero_iff.1 hnil)]
    rw [htake x (hx.resolve_left hnil)]

/-! ## The longest match -/

lemma kind?_munchWord (t : Text) :
    (munchWord t).kind? = some .word ∨ (munchWord t).kind? = some .unexpected := by
  rw [munchWord]
  split
  · exact .inr rfl
  · exact .inl rfl

lemma munch_eq_munchWord {t : Text}
    (h : (munch t).kind? = some .word ∨ (munch t).kind? = some .unexpected) :
    munch t = munchWord t := by
  unfold munch at h ⊢
  split at h
  case h_11 =>
    split at h
    · rcases h with h | h <;> cases h
    · rename_i hspace
      exact if_neg hspace
  all_goals rcases h with h | h <;> cases h

lemma munch_withReturns_eq_munchWord {t : Text} (hreturn : '\r' ∉ t)
    (hword : munch t = munchWord t) : munch (withReturns t) = munchWord (withReturns t) := by
  have hkind := kind?_munchWord t
  rw [← hword] at hkind
  unfold munch at hkind
  split at hkind
  case h_11 c t hand hamp hor hbar hsemicolon hline hreturnLine hescape hescapeReturn hhash =>
    have hspace : isSpace c ≠ true := by
      intro hspace
      rw [if_pos hspace] at hkind
      rcases hkind with h | h <;> cases h
    have heq : munch (c :: withReturns t) = _ :=
      munch.eq_11 c (withReturns t) (fun u hc => absurd hc hamp) hamp (fun u hc => absurd hc hbar)
        hbar hsemicolon hline (fun u _ => withReturns_ne_feed t u)
        (fun u _ => withReturns_ne_feed t u)
        (fun u hc => withReturns_ne_return (mt (List.mem_cons_of_mem c) hreturn)
          (fun v => hescape v hc) _) hhash
    rw [if_neg hspace] at heq
    rwa [withReturns_cons hline]
  all_goals rcases hkind with h | h <;> cases h

/-- What stands at the start of a text stands there also with carriage returns, unless it is a
comment, to which the first carriage return behind it will belong. -/
lemma munch_withReturns {t : Text} (hreturn : '\r' ∉ t)
    (hcomment : (munch t).kind? ≠ some .comment)
    (h : munch t = munchWord t → ¬ WordState.start.EscapesBreak t) (hne : t ≠ []) :
    munch (withReturns t) = ⟨(munch t).kind?, (withReturns (t.take (munch t).size)).length⟩ := by
  unfold munch at hcomment
  split at hcomment
  case h_2 t hamp =>
    have hnext : ∀ u, withReturns t ≠ '&' :: u := withReturns_ne_cons (by decide) fun u => hamp u
    rw [munch.eq_2 t hamp, withReturns_cons (by decide)]
    exact munch.eq_2 (withReturns t) hnext
  case h_4 t hbar =>
    have hnext : ∀ u, withReturns t ≠ '|' :: u := withReturns_ne_cons (by decide) fun u => hbar u
    rw [munch.eq_4 t hbar, withReturns_cons (by decide)]
    exact munch.eq_4 (withReturns t) hnext
  case h_7 t => exact absurd List.mem_cons_self hreturn
  case h_9 t => exact absurd (by simp) hreturn
  case h_10 t => exact absurd rfl hcomment
  case h_11 c t hand hamp hor hbar hsemicolon hline hreturnLine hescape hescapeReturn hhash =>
    by_cases hc : isSpace c = true
    · have hspace (u : Text) : munch (c :: u) = ⟨none, 1 + (u.takeWhile isSpace).length⟩ := by
        obtain rfl | rfl : c = ' ' ∨ c = '\t' := by simpa [isSpace] using hc
        · rfl
        · rfl
      have hspaces : ∀ d ∈ c :: t.takeWhile isSpace, d ≠ '\n' := by
        rintro d hd rfl
        rcases List.mem_cons.1 hd with rfl | hd
        · exact hline rfl
        · exact absurd (List.mem_takeWhile_imp hd) (by decide)
      rw [withReturns_cons hline, hspace, hspace, takeWhile_isSpace_withReturns, Nat.add_comm 1,
        List.take_succ_cons, ← List.prefix_iff_eq_take.1 (List.takeWhile_prefix _),
        withReturns_eq_self hspaces, List.length_cons]
    · have hword : munch (c :: t) = munchWord (c :: t) :=
        (munch.eq_11 c t hand hamp hor hbar hsemicolon hline hreturnLine hescape hescapeReturn
          hhash).trans (if_neg hc)
      rw [munch_withReturns_eq_munchWord hreturn hword, munchWord_withReturns hline (h hword),
        hword]
  case h_12 => exact absurd rfl hne
  all_goals rfl

end FishScript
