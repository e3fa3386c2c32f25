/-
# The longest match

At each place the token that is taken is the longest text that any pattern matches there, what
stands between tokens is skipped by a pattern too, and a token that is unexpected begins only where
no pattern matches anything (`tokens_maximalMunch`).
-/
import Mathlib
import FishScript.Proofs.Token.Order
import FishScript.Proofs.Token.Patterns

namespace FishScript

open scoped Computability

open Pattern

/-! ## How the texts of the patterns begin -/

section Patterns

variable {u w : Text} {c : Char} {kind kind' : TokenKind}

/-- A word begins with a character that begins no other token. -/
lemma exists_of_mem_word (hu : u ∈ word) :
    ∃ c w, u = c :: w ∧ Text.isBlank c = false ∧ c ∉ [';', '|', '&', '#'] := by
  obtain ⟨x, hx, y, -, rfl⟩ := Language.mem_mul.1 hu
  rcases hx with ((⟨c, ⟨hblank, hc⟩, rfl⟩ | hx) | hx) | hx
  · refine ⟨c, y, rfl, hblank, fun h => hc ?_⟩
    simp only [List.mem_cons, List.not_mem_nil, or_false] at h ⊢
    tauto
  · obtain ⟨a, rfl, b, -, rfl⟩ := Language.mem_mul.1 hx
    exact ⟨'\\', b ++ y, rfl, by decide, by decide⟩
  · obtain ⟨a, ha, b, -, rfl⟩ := Language.mem_mul.1 hx
    obtain ⟨a, rfl, d, -, rfl⟩ := Language.mem_mul.1 ha
    exact ⟨'\'', d ++ b ++ y, by simp, by decide, by decide⟩
  · obtain ⟨a, ha, b, -, rfl⟩ := Language.mem_mul.1 hx
    obtain ⟨a, rfl, d, -, rfl⟩ := Language.mem_mul.1 ha
    exact ⟨'"', d ++ b ++ y, by simp, by decide, by decide⟩

/-- How the text of a token begins says of what kind it is. -/
inductive Begins : Char → Text → TokenKind → Prop
  | andAnd : Begins '&' ['&'] .andAnd
  | orOr : Begins '|' ['|'] .orOr
  | pipe : Begins '|' [] .pipe
  | ampersand : Begins '&' [] .ampersand
  | semicolon : Begins ';' [] .semicolon
  | feed : Begins '\n' [] .newline
  | returnFeed : Begins '\r' ['\n'] .newline
  | comment {w : Text} (h : ∀ c ∈ w, c ≠ '\n') : Begins '#' w .comment
  | word {c : Char} {w : Text} (hword : c :: w ∈ word) (hblank : Text.isBlank c = false)
    (hc : c ∉ [';', '|', '&', '#']) : Begins c w .word

lemma exists_begins (hu : u ∈ kind.pattern) : ∃ c w, u = c :: w ∧ Begins c w kind := by
  cases kind with
  | andAnd => exact ⟨_, _, hu, .andAnd⟩
  | orOr => exact ⟨_, _, hu, .orOr⟩
  | pipe => exact ⟨_, _, hu, .pipe⟩
  | ampersand => exact ⟨_, _, hu, .ampersand⟩
  | semicolon => exact ⟨_, _, hu, .semicolon⟩
  | newline =>
    obtain ⟨a, rfl | rfl, b, rfl, rfl⟩ := Language.mem_mul.1 hu
    · exact ⟨_, _, rfl, .feed⟩
    · exact ⟨_, _, rfl, .returnFeed⟩
  | comment =>
    obtain ⟨a, rfl, w, hw, rfl⟩ := Language.mem_mul.1 hu
    exact ⟨_, w, rfl, .comment (mem_oneOf_kstar.1 hw)⟩
  | word =>
    obtain ⟨c, w, rfl, hblank, hc⟩ := exists_of_mem_word hu
    exact ⟨c, w, rfl, .word hu hblank hc⟩
  | unexpected => exact absurd hu (Set.notMem_empty u)

lemma kind_unique (hu : u ∈ kind.pattern) (hu' : u ∈ kind'.pattern) : kind = kind' := by
  obtain ⟨c, w, rfl, h⟩ := exists_begins hu
  obtain ⟨c', w', heq, h'⟩ := exists_begins hu'
  obtain ⟨rfl, rfl⟩ := List.cons.inj heq
  cases h with
  | word hword hblank hc =>
    cases h' with
    | word => rfl
    | _ =>
      revert hblank hc
      decide
  | _ =>
    cases h' with
    | word hword hblank hc =>
      revert hblank hc
      decide
    | _ => rfl

lemma skipped_cases (hu : u ∈ skipped) :
    (∃ c w, u = c :: w ∧ ∀ d ∈ c :: w, isSpace d = true) ∨ u = ['\\', '\n'] ∨
      u = ['\\', '\r', '\n'] := by
  rcases hu with hu | hu
  · obtain ⟨a, ⟨c, hc, rfl⟩, w, hw, rfl⟩ := Language.mem_mul.1 hu
    exact .inl ⟨c, w, rfl, List.forall_mem_cons.2 ⟨hc, mem_oneOf_kstar.1 hw⟩⟩
  · obtain ⟨a, ha, b, rfl, rfl⟩ := Language.mem_mul.1 hu
    obtain ⟨a, rfl, d, rfl | rfl, rfl⟩ := Language.mem_mul.1 ha
    · exact .inr (.inl rfl)
    · exact .inr (.inr rfl)

lemma notMem_skipped (hspace : isSpace c = false)
    (hescape : c = '\\' → w ≠ ['\n'] ∧ w ≠ ['\r', '\n']) : c :: w ∉ skipped := by
  intro h
  obtain ⟨d, v, heq, hall⟩ | heq | heq := skipped_cases h
  · rw [← heq] at hall
    rw [hall c List.mem_cons_self] at hspace
    cases hspace
  · obtain ⟨rfl, rfl⟩ := List.cons.inj heq
    exact (hescape rfl).1 rfl
  · obtain ⟨rfl, rfl⟩ := List.cons.inj heq
    exact (hescape rfl).2 rfl

end Patterns

/-! ## What stands at the start of a text -/

/-- Nothing longer stands at the start of the text than what is taken, and a pattern matches that,
or no pattern matches anything there. -/
structure Munch.Longest (m : Munch) (t : Text) : Prop where
  skipped : m.kind? = none → t.take m.size ∈ Pattern.skipped
  matched : ∀ kind, m.kind? = some kind → kind ≠ .unexpected → t.take m.size ∈ kind.pattern
  longest : m.kind? ≠ some .unexpected → ∀ u, u <+: t → IsMatched u → u.length ≤ m.size
  unexpected : m.kind? = some .unexpected → ∀ u, u <+: t → u ≠ [] → ¬ IsMatched u

section Munch

variable {t u w : Text} {c : Char}

lemma IsMatched.exists_cons (h : IsMatched u) :
    ∃ c w, u = c :: w ∧ ((∃ kind, Begins c w kind) ∨ c :: w ∈ Pattern.skipped) := by
  rcases h with h | ⟨kind, h⟩
  · obtain ⟨c, w, rfl, -⟩ | rfl | rfl := skipped_cases h
    · exact ⟨c, w, rfl, .inr h⟩
    · exact ⟨_, _, rfl, .inr h⟩
    · exact ⟨_, _, rfl, .inr h⟩
  · obtain ⟨c, w, rfl, hbegins⟩ := exists_begins h
    exact ⟨c, w, rfl, .inl ⟨kind, hbegins⟩⟩

lemma longest_of_begins {kind : TokenKind} {size : Nat} (hkind : kind ≠ .unexpected)
    (hmatched : (c :: t).take size ∈ kind.pattern)
    (hlongest : ∀ w, w <+: t → ∀ kind, Begins c w kind → w.length + 1 ≤ size)
    (hskipped : isSpace c = false) (hescape : c ≠ '\\') :
    Munch.Longest ⟨some kind, size⟩ (c :: t) where
  skipped h := by cases h
  matched kind' h _ := by
    obtain rfl := Option.some_inj.1 h
    exact hmatched
  longest _ u hu h := by
    obtain ⟨d, w, rfl, ⟨kind', hbegins⟩ | hskip⟩ := h.exists_cons
    · obtain ⟨rfl, hw⟩ := List.cons_prefix_cons.1 hu
      exact hlongest w hw kind' hbegins
    · obtain ⟨rfl, -⟩ := List.cons_prefix_cons.1 hu
      exact absurd hskip (notMem_skipped hskipped fun hc => absurd hc hescape)
  unexpected h := absurd (Option.some_inj.1 h) hkind

/-- Behind a backslash a word goes on with a character that does not end the line, and it ends
before the end of the line. -/
lemma word_of_backslash (h : '\\' :: w ∈ word) :
    ∃ d v, w = d :: v ∧ d ≠ '\n' ∧ ∀ v', v ≠ '\n' :: v' := by
  obtain ⟨s, hrun, hs⟩ := WordState.accepts_iff.2 h
  rcases w with _ | ⟨d, v⟩
  · cases hrun
    cases hs
  · refine ⟨d, v, rfl, ?_, ?_⟩
    · rintro rfl
      cases hrun
    · rintro v' rfl
      have hnone : WordState.start.run? ('\\' :: d :: '\n' :: v') = none := by
        show (WordState.escape.next? d).bind _ = none
        rw [WordState.next?]
        split <;> rfl
      rw [hnone] at hrun
      cases hrun

lemma longest_of_continuation {x : Text} (hx : x = ['\n'] ∨ x = ['\r', '\n']) :
    Munch.Longest ⟨none, x.length + 1⟩ ('\\' :: (x ++ t)) where
  skipped _ := by
    rw [List.take_succ_cons, List.take_left]
    have hback : ∀ y : Text, y ∈ 1 + exactly ['\r'] → '\\' :: (y ++ ['\n']) ∈ Pattern.skipped := by
      intro y hy
      exact .inr (Language.append_mem_mul (Language.append_mem_mul (mem_exactly.2 rfl) hy)
        (mem_exactly.2 rfl))
    rcases hx with rfl | rfl
    · exact hback [] (.inl rfl)
    · exact hback ['\r'] (.inr rfl)
  matched kind h := by cases h
  longest _ u hu h := by
    obtain ⟨d, w, rfl, ⟨kind, hbegins⟩ | hskip⟩ := h.exists_cons
    · obtain ⟨rfl, hw⟩ := List.cons_prefix_cons.1 hu
      cases hbegins with
      | word hword hblank hc =>
        obtain ⟨e, v, rfl, he, hv⟩ := word_of_backslash hword
        rcases hx with rfl | rfl
        · exact absurd (List.cons_prefix_cons.1 hw).1 he
        · obtain ⟨-, hv'⟩ := List.cons_prefix_cons.1 hw
          rcases v with _ | ⟨e', v⟩
          · simp
          · obtain ⟨rfl, -⟩ := List.cons_prefix_cons.1 hv'
            exact absurd rfl (hv v)
    · obtain ⟨e, v, heq, hall⟩ | heq | heq := skipped_cases hskip
      · obtain ⟨rfl, -⟩ := List.cons_prefix_cons.1 hu
        rw [← heq] at hall
        exact absurd (hall _ List.mem_cons_self) (by decide)
      · rw [heq]
        rcases hx with rfl | rfl <;> simp
      · rw [heq] at hu ⊢
        rcases hx with rfl | rfl
        · simp at hu
        · simp
  unexpected h := by cases h

lemma length_le_takeWhile {p : Char → Bool} (hw : w <+: t) (h : ∀ c ∈ w, p c = true) :
    w.length ≤ (t.takeWhile p).length := by
  obtain ⟨rest, rfl⟩ := hw
  rw [List.takeWhile_append_of_pos h, List.length_append]
  exact Nat.le_add_right _ _

lemma longest_of_space (hc : isSpace c = true) :
    Munch.Longest ⟨none, 1 + (t.takeWhile isSpace).length⟩ (c :: t) where
  skipped _ := by
    rw [Nat.add_comm, List.take_succ_cons, ← List.prefix_iff_eq_take.1 (List.takeWhile_prefix _)]
    refine .inl (Language.append_mem_mul (mem_oneOf.2 ⟨c, hc, rfl⟩) (mem_oneOf_kstar.2 ?_))
    exact fun d hd => List.mem_takeWhile_imp hd
  matched kind h := by cases h
  longest _ u hu h := by
    obtain ⟨d, w, rfl, ⟨kind, hbegins⟩ | hskip⟩ := h.exists_cons
    · exfalso
      obtain ⟨rfl, hw⟩ := List.cons_prefix_cons.1 hu
      cases hbegins with
      | word hword hblank =>
        obtain rfl | rfl : d = ' ' ∨ d = '\t' := by simpa [isSpace] using hc
        · cases hblank
        · cases hblank
      | _ => cases hc
    · obtain ⟨rfl, hw⟩ := List.cons_prefix_cons.1 hu
      obtain ⟨e, v, heq, hall⟩ | heq | heq := skipped_cases hskip
      · rw [← heq] at hall
        have hle := length_le_takeWhile hw (List.forall_mem_cons.1 hall).2
        show w.length + 1 ≤ 1 + _
        omega
      · obtain ⟨rfl, -⟩ := List.cons.inj heq
        cases hc
      · obtain ⟨rfl, -⟩ := List.cons.inj heq
        cases hc
  unexpected h := by cases h

/-- Where no sign, no space and no line break stands only a word may be matched. -/
lemma longest_of_word (h : ∀ u, u <+: t → IsMatched u → u ∈ word) :
    (munchWord t).Longest t := by
  obtain ⟨hnone, hkind⟩ | ⟨hword, hlongest, hkind⟩ := munchWord_spec t
  · exact ⟨fun h => (by rw [hkind] at h; cases h),
      fun kind h hne => (by rw [hkind] at h; exact absurd (Option.some_inj.1 h).symm hne),
      fun h => absurd hkind h, fun _ u hu hne hu' => hnone u hu hne (h u hu hu')⟩
  · exact ⟨fun h => (by rw [hkind] at h; cases h),
      fun kind h _ => (by rw [hkind] at h; obtain rfl := Option.some_inj.1 h; exact hword),
      fun _ u hu hu' => hlongest u hu (h u hu hu'), fun h => (by rw [hkind] at h; cases h)⟩

lemma IsMatched.mem_word (h : IsMatched u) (hu : u <+: c :: t) (hspace : isSpace c = false)
    (hsign : c ∉ ['&', '|', ';', '\n', '#']) (hreturn : ∀ rest, c = '\r' → t ≠ '\n' :: rest)
    (hescape : ∀ rest, c = '\\' → t ≠ '\n' :: rest ∧ t ≠ '\r' :: '\n' :: rest) : u ∈ word := by
  obtain ⟨d, w, rfl, ⟨kind, hbegins⟩ | hskip⟩ := h.exists_cons
  · obtain ⟨rfl, rest, rfl⟩ := List.cons_prefix_cons.1 hu
    cases hbegins with
    | word hword => exact hword
    | returnFeed => exact absurd rfl (hreturn rest rfl)
    | _ => exact absurd hsign (by decide)
  · obtain ⟨rfl, rest, rfl⟩ := List.cons_prefix_cons.1 hu
    refine absurd hskip (notMem_skipped hspace fun hc => ⟨?_, ?_⟩)
    · rintro rfl
      exact (hescape rest hc).1 rfl
    · rintro rfl
      exact (hescape rest hc).2 rfl

/-- What is taken at the start of a text is the longest match there. -/
theorem munch_longest (hne : t ≠ []) : (munch t).Longest t := by
  unfold munch
  split
  -- the signs: only the sign that is written twice is longer than another
  case h_1 t =>
    refine longest_of_begins (by decide) rfl (fun w hw kind h => ?_) rfl (by decide)
    cases h with
    | word hword hblank hc => exact absurd hc (by decide)
    | _ => simp
  case h_2 t hamp =>
    refine longest_of_begins (by decide) rfl (fun w hw kind h => ?_) rfl (by decide)
    cases h with
    | word hword hblank hc => exact absurd hc (by decide)
    | andAnd =>
      obtain ⟨rest, rfl⟩ := hw
      exact absurd rfl (hamp rest)
    | _ => simp
  case h_3 t =>
    refine longest_of_begins (by decide) rfl (fun w hw kind h => ?_) rfl (by decide)
    cases h with
    | word hword hblank hc => exact absurd hc (by decide)
    | _ => simp
  case h_4 t hbar =>
    refine longest_of_begins (by decide) rfl (fun w hw kind h => ?_) rfl (by decide)
    cases h with
    | word hword hblank hc => exact absurd hc (by decide)
    | orOr =>
      obtain ⟨rest, rfl⟩ := hw
      exact absurd rfl (hbar rest)
    | _ => simp
  case h_5 t =>
    refine longest_of_begins (by decide) rfl (fun w hw kind h => ?_) rfl (by decide)
    cases h with
    | word hword hblank hc => exact absurd hc (by decide)
    | _ => simp
  -- the ends of lines, and those that are skipped
  case h_6 t =>
    refine longest_of_begins (by decide) ?_ (fun w hw kind h => ?_) rfl (by decide)
    · have hnil : ([] : Text) ∈ 1 + exactly ['\r'] := .inl rfl
      exact Language.append_mem_mul hnil (mem_exactly.2 rfl)
    · cases h with
      | word hword hblank hc => cases hblank
      | _ => simp
  case h_7 t =>
    refine longest_of_begins (by decide) ?_ (fun w hw kind h => ?_) rfl (by decide)
    · have hreturn : ['\r'] ∈ 1 + exactly ['\r'] := .inr rfl
      exact Language.append_mem_mul hreturn (mem_exactly.2 rfl)
    · cases h with
      | word hword hblank hc => cases hblank
      | _ => simp
  case h_8 t => exact longest_of_continuation (.inl rfl)
  case h_9 t => exact longest_of_continuation (.inr rfl)
  case h_10 t =>
    refine longest_of_begins (by decide) ?_ (fun w hw kind h => ?_) rfl (by decide)
    · rw [Nat.add_comm, List.take_succ_cons, ← List.prefix_iff_eq_take.1 (List.takeWhile_prefix _)]
      refine Language.append_mem_mul (mem_exactly.2 rfl) (mem_oneOf_kstar.2 fun d hd => ?_)
      simpa using List.mem_takeWhile_imp hd
    · cases h with
      | word hword hblank hc => exact absurd hc (by decide)
      | comment h =>
        have hle := length_le_takeWhile (p := (· != '\n')) hw (by simpa using h)
        omega
  case h_11 c t hand hamp hor hbar hsemicolon hline hreturnLine hescape hescapeReturn hhash =>
    by_cases hc : isSpace c = true
    · rw [if_pos hc]
      exact longest_of_space hc
    · rw [if_neg hc]
      refine longest_of_word fun u hu h => h.mem_word hu (eq_false_of_ne_true hc) ?_ hreturnLine
        fun rest hback => ⟨hescape rest hback, hescapeReturn rest hback⟩
      simpa using ⟨hamp, hbar, hsemicolon, hline, hhash⟩
  case h_12 => exact absurd rfl hne

end Munch

/-! ## The tokens of a text -/

/-- What a token says of the text that begins where it stands: it is the longest match of its
pattern or of any other, or, if it is unexpected, no pattern matches anything there. -/
structure Token.Stands (tok : Token) (input : Text) : Prop where
  begins : tok.text <+: input
  matched : tok.kind ≠ .unexpected → ∀ kind, tok.text ∈ kind.pattern ↔ kind = tok.kind
  longest : tok.kind ≠ .unexpected → ∀ u, u <+: input → IsMatched u → u.length ≤ tok.text.length
  unexpected : tok.kind = .unexpected → ∀ u, u <+: input → u ≠ [] → ¬ IsMatched u

/-- The tokens are laid out in the text, which starts at the offset, and what stands around them is
skipped. -/
inductive Laid : Nat → Text → List Token → Prop
  | nil {offset : Nat} : Laid offset [] []
  | skip {offset : Nat} {x t : Text} {toks : List Token} (hx : x ∈ Pattern.skipped)
    (h : Laid (offset + x.byteLength) t toks) : Laid offset (x ++ t) toks
  | token {tok : Token} {t : Text} {toks : List Token} (hne : tok.text ≠ [])
    (hstands : tok.Stands (tok.text ++ t)) (h : Laid tok.stop t toks) :
    Laid tok.start (tok.text ++ t) (tok :: toks)

section Tokens

variable {t : Text} {offset : Nat} {tok : Token} {before after toks : List Token}

lemma munch_size_pos (hne : t ≠ []) : 0 < (munch t).size := by
  have hword : 0 < (munchWord t).size := by
    rw [munchWord]
    split
    · exact Nat.lt_of_lt_of_le Nat.one_pos (le_max_left _ _)
    · exact Nat.pos_of_ne_zero ‹_›
  unfold munch
  split
  case h_11 =>
    split
    · exact Nat.add_pos_left Nat.one_pos _
    · exact hword
  case h_10 => exact Nat.add_pos_left Nat.one_pos _
  case h_12 => exact absurd rfl hne
  all_goals exact Nat.succ_pos _

lemma tokensFrom_munch (hne : t ≠ []) (offset : Nat) :
    tokensFrom 0 offset t =
      ((munch t).kind?.map fun kind => ⟨kind, t.take (munch t).size, offset⟩).toList ++
        tokensFrom 0 (offset + Text.byteLength (t.take (munch t).size))
          (t.drop (munch t).size) := by
  obtain ⟨c, t, rfl⟩ := List.exists_cons_of_ne_nil hne
  obtain ⟨n, hn⟩ := Nat.exists_eq_add_one_of_ne_zero (munch_size_pos hne).ne'
  have hle := munch_size_le hne
  have hrest : tokensFrom n (offset + c.utf8Size) t =
      tokensFrom 0 (offset + Text.byteLength (c :: t.take n)) (t.drop n) := by
    have hlength : (t.take n).length = n := by
      rw [List.length_take]
      rw [hn, List.length_cons] at hle
      omega
    nth_rewrite 1 [← List.take_append_drop n t]
    rw [tokensFrom_skip hlength, Text.byteLength_cons, Nat.add_assoc]
  rw [tokensFrom, hn, Nat.add_sub_cancel, hrest, List.take_succ_cons, List.drop_succ_cons]
  cases (munch (c :: t)).kind? <;> rfl

lemma stands_munch (hne : t ≠ []) {kind : TokenKind} (hkind : (munch t).kind? = some kind)
    (offset : Nat) : Token.Stands ⟨kind, t.take (munch t).size, offset⟩ t where
  begins := List.take_prefix _ t
  matched hk kind' := by
    have hmem := (munch_longest hne).matched kind hkind hk
    constructor
    · intro h
      exact kind_unique h hmem
    · rintro rfl
      exact hmem
  longest hk u hu h := by
    have hle := (munch_longest hne).longest (by simpa [hkind] using hk) u hu h
    rw [List.length_take]
    exact le_min hle hu.length_le
  unexpected hk u hu hne' h := by
    refine (munch_longest hne).unexpected ?_ u hu hne' h
    rw [hkind]
    exact congrArg some hk

/-- The tokens of a text are laid out in it. -/
theorem laid_tokensFrom (t : Text) (offset : Nat) : Laid offset t (tokensFrom 0 offset t) := by
  induction hlength : t.length using Nat.strong_induction_on generalizing t offset with
  | _ n ih =>
    by_cases hne : t = []
    · subst hne
      exact .nil
    · have hpos := munch_size_pos hne
      have hle := munch_size_le hne
      have hrest := ih (t.drop (munch t).size).length (by rw [List.length_drop]; omega)
        (t.drop (munch t).size) (offset + Text.byteLength (t.take (munch t).size)) rfl
      rw [tokensFrom_munch hne]
      cases hkind : (munch t).kind? with
      | none =>
        have hskip := Laid.skip ((munch_longest hne).skipped hkind) hrest
        rwa [List.take_append_drop] at hskip
      | some kind =>
        have htake : t.take (munch t).size ≠ [] := by
          rw [Ne, List.take_eq_nil_iff, not_or]
          exact ⟨hpos.ne', hne⟩
        have hstands : Token.Stands ⟨kind, t.take (munch t).size, offset⟩
            (t.take (munch t).size ++ t.drop (munch t).size) := by
          rw [List.take_append_drop]
          exact stands_munch hne hkind offset
        have htoken : Laid offset (t.take (munch t).size ++ t.drop (munch t).size)
            (⟨kind, t.take (munch t).size, offset⟩ :: _) := .token htake hstands hrest
        rwa [List.take_append_drop] at htoken

namespace Laid

/-- Before the first token, or, if there is none, to the end, all is skipped. -/
lemma gap (h : Laid offset t toks) : ∃ x ∈ Pattern.skipped∗, ∃ rest, t = x ++ rest ∧
    (toks.head?.map Token.start).getD (offset + t.byteLength) = offset + Text.byteLength x := by
  induction h with
  | nil => exact ⟨[], nil_mem_kstar, [], rfl, rfl⟩
  | @skip offset x t toks hx h ih =>
    obtain ⟨y, hy, rest, rfl, hstart⟩ := ih
    obtain ⟨ys, rfl, hys⟩ := Language.mem_kstar.1 hy
    refine ⟨x ++ ys.flatten, ?_, rest, (List.append_assoc _ _ _).symm, ?_⟩
    · exact Language.mem_kstar.2 ⟨x :: ys, rfl, List.forall_mem_cons.2 ⟨hx, hys⟩⟩
    · rw [Text.byteLength_append, ← Nat.add_assoc, hstart, Text.byteLength_append, Nat.add_assoc]
  | @token tok t toks hne hstands h ih => exact ⟨[], nil_mem_kstar, _, rfl, rfl⟩

/-- A token stands where its start says, and the tokens after it are laid out behind it. -/
lemma split (h : Laid offset t (before ++ tok :: after)) : ∃ front rest,
    t = front ++ tok.text ++ rest ∧ tok.start = offset + Text.byteLength front ∧ tok.text ≠ [] ∧
      tok.Stands (tok.text ++ rest) ∧ Laid tok.stop rest after := by
  generalize htoks : before ++ tok :: after = toks at h
  induction h generalizing before with
  | nil => simp at htoks
  | @skip offset x t toks hx h ih =>
    obtain ⟨front, rest, rfl, hstart, hne, hstands, hafter⟩ := ih htoks
    refine ⟨x ++ front, rest, by simp, ?_, hne, hstands, hafter⟩
    rw [hstart, Text.byteLength_append, Nat.add_assoc]
  | @token tok' t toks hne hstands h ih =>
    rcases before with _ | ⟨tok'', before⟩
    · obtain ⟨rfl, rfl⟩ := List.cons.inj htoks
      exact ⟨[], t, rfl, rfl, hne, hstands, h⟩
    · obtain ⟨rfl, htail⟩ := List.cons.inj htoks
      obtain ⟨front, rest, rfl, hstart, hne', hstands', hafter⟩ := ih htail
      refine ⟨tok''.text ++ front, rest, by simp, ?_, hne', hstands', hafter⟩
      rw [hstart, Token.stop, Text.byteLength_append, Nat.add_assoc]

end Laid

end Tokens

/-! ## The main statement -/

/-- The tokens cover the source: they are slices of it in order, what stands before, between and
behind them is skipped, and each is the longest match where it stands. -/
structure MaximalMunch (source : Text) (toks : List Token) : Prop where
  nonempty : ∀ tok ∈ toks, tok.start < tok.stop
  boundaries : ∀ tok ∈ toks,
    Text.isBoundary tok.start source = true ∧ Text.isBoundary tok.stop source = true
  slices : ∀ tok ∈ toks, tok.span.text? source = some tok.text
  apart : toks.Pairwise fun tok next => tok.stop ≤ next.start
  skips : ∀ before after, toks = before ++ after → ∃ x ∈ Pattern.skipped∗,
    Text.slice? ((before.getLast?.map Token.stop).getD 0)
      ((after.head?.map Token.start).getD source.byteLength) source = some x
  stands : ∀ tok ∈ toks, ∃ input,
    Text.skipBytes? tok.start source = some input ∧ tok.Stands input

lemma byteLength_pos {t : Text} (hne : t ≠ []) : 0 < t.byteLength := by
  obtain ⟨c, t, rfl⟩ := List.exists_cons_of_ne_nil hne
  have hpos := Char.utf8Size_pos c
  rw [Text.byteLength_cons]
  omega

/-- The tokens of a source are found by maximal munch and cover it. -/
theorem tokens_maximalMunch (source : Text) : MaximalMunch source (tokens source) := by
  have hlaid : Laid 0 source (tokens source) := laid_tokensFrom source 0
  have hsplit : ∀ tok ∈ tokens source, ∃ front rest, source = front ++ tok.text ++ rest ∧
      tok.start = Text.byteLength front ∧ tok.text ≠ [] ∧ tok.Stands (tok.text ++ rest) := by
    intro tok htok
    obtain ⟨before, after, heq⟩ := List.append_of_mem htok
    rw [heq] at hlaid
    obtain ⟨front, rest, hsource, hstart, hne, hstands, -⟩ := hlaid.split
    rw [Nat.zero_add] at hstart
    exact ⟨front, rest, hsource, hstart, hne, hstands⟩
  refine ⟨fun tok htok => ?_, fun tok htok => ?_, fun tok htok => text?_of_mem_tokens htok, ?_,
    fun before after heq => ?_, fun tok htok => ?_⟩
  · obtain ⟨front, rest, -, -, hne, -⟩ := hsplit tok htok
    exact Nat.lt_add_of_pos_right (byteLength_pos hne)
  · obtain ⟨front, rest, rfl, hstart, -, -⟩ := hsplit tok htok
    rw [Token.stop, hstart, ← Text.byteLength_append, Text.isBoundary, Text.isBoundary,
      Text.skipBytes?_byteLength, List.append_assoc, Text.skipBytes?_byteLength]
    exact ⟨rfl, rfl⟩
  · have happart := (inOrder_tokensFrom source 0 0).1.apart
    rwa [List.pairwise_map] at happart
  · -- what is skipped begins at the start of the source or at the end of a token
    rcases List.eq_nil_or_concat' before with rfl | ⟨before, tok, rfl⟩
    · rw [List.nil_append] at heq
      rw [heq] at hlaid
      obtain ⟨x, hx, rest, hsource, hstart⟩ := hlaid.gap
      rw [Nat.zero_add, Nat.zero_add] at hstart
      refine ⟨x, hx, ?_⟩
      have hslice := Text.slice?_append [] x rest
      rw [List.nil_append, ← hsource, Text.byteLength_nil, Nat.zero_add] at hslice
      rw [hstart]
      exact hslice
    · rw [List.append_assoc, List.singleton_append] at heq
      rw [heq] at hlaid
      obtain ⟨front, rest, hsource, hstart, -, -, hafter⟩ := hlaid.split
      obtain ⟨x, hx, rest, rfl, hnext⟩ := hafter.gap
      have hstop : tok.stop = Text.byteLength (front ++ tok.text) := by
        rw [Token.stop, hstart, Nat.zero_add, Text.byteLength_append]
      have hlength : source.byteLength = tok.stop + Text.byteLength (x ++ rest) := by
        rw [hstop, ← Text.byteLength_append, ← hsource]
      refine ⟨x, hx, ?_⟩
      have hslice := Text.slice?_append (front ++ tok.text) x rest
      rw [List.append_assoc (front ++ tok.text), ← hsource] at hslice
      rw [hlength, hnext, hstop, List.getLast?_concat, Option.map_some, Option.getD_some, hstop]
      exact hslice
  · obtain ⟨front, rest, rfl, hstart, -, hstands⟩ := hsplit tok htok
    refine ⟨tok.text ++ rest, ?_, hstands⟩
    rw [hstart, List.append_assoc, Text.skipBytes?_byteLength]

end FishScript
