/-
# Source without its comments

A comment is followed by the end of its line, or by nothing. So when the texts of the comments are
taken out of a source whose tokens are all recognised, the tokens before a comment stay the longest
matches where they stand (`munch_of_edge`), and what is left has the other tokens, in their order
(`tokens_withoutComments`).
-/
import Mathlib
import FishScript.Proofs.Token.Lines
import FishScript.Proofs.Token.Munching

namespace FishScript

/-! ## Taking out comments -/

/-- The characters of a text that starts at the offset, each with the offset of its first byte. -/
def located (offset : Nat) : Text → List (Char × Nat)
  | [] => []
  | c :: t => (c, offset) :: located (offset + c.utf8Size) t

/-- The byte at the offset belongs to the token. -/
def Token.covers (tok : Token) (offset : Nat) : Bool := tok.start ≤ offset && offset < tok.stop

/-- A text that starts at the offset without the characters that belong to comments among the
tokens. -/
def uncommented (toks : List Token) (offset : Nat) (t : Text) : Text :=
  ((located offset t).filter fun c =>
    !toks.any fun tok => tok.kind == .comment && tok.covers c.2).map Prod.fst

/-- A source without the texts of its comments. -/
def withoutComments (source : Text) : Text := uncommented (tokens source) 0 source

section Uncommented

variable {toks toks' : List Token} {tok : Token} {offset n : Nat} {t x y : Text} {c : Char}

lemma located_append (x y : Text) (offset : Nat) :
    located offset (x ++ y) = located offset x ++ located (offset + x.byteLength) y := by
  induction x generalizing offset with
  | nil => rfl
  | cons c x ih =>
    rw [List.cons_append, located, located, ih, List.cons_append, Text.byteLength_cons,
      Nat.add_assoc]

lemma map_fst_located (t : Text) (offset : Nat) : (located offset t).map Prod.fst = t := by
  induction t generalizing offset with
  | nil => rfl
  | cons c t ih => rw [located, List.map_cons, ih]

lemma mem_located (h : (c, n) ∈ located offset t) :
    offset ≤ n ∧ n < offset + t.byteLength := by
  induction t generalizing offset with
  | nil => cases h
  | cons d t ih =>
    have hpos := Char.utf8Size_pos d
    rw [Text.byteLength_cons]
    rcases List.mem_cons.1 h with heq | h
    · obtain ⟨rfl, rfl⟩ := Prod.mk.inj heq
      omega
    · obtain ⟨hle, hlt⟩ := ih h
      omega

lemma uncommented_append (toks : List Token) (offset : Nat) (x y : Text) :
    uncommented toks offset (x ++ y) =
      uncommented toks offset x ++ uncommented toks (offset + x.byteLength) y := by
  rw [uncommented, located_append, List.filter_append, List.map_append]
  rfl

lemma uncommented_eq_self (h : ∀ tok ∈ toks, tok.kind = .comment →
    tok.stop ≤ offset ∨ offset + x.byteLength ≤ tok.start) : uncommented toks offset x = x := by
  rw [uncommented, List.filter_eq_self.2, map_fst_located]
  rintro ⟨c, n⟩ hc
  obtain ⟨hle, hlt⟩ := mem_located hc
  simp only [Bool.not_eq_true', List.any_eq_false, Bool.and_eq_true, beq_iff_eq, not_and,
    Token.covers, decide_eq_true_eq]
  rintro tok htok hk hstart
  have hout := h tok htok hk
  omega

lemma uncommented_eq_nil (h : tok ∈ toks) (hk : tok.kind = .comment) (hstart : tok.start = offset)
    (hstop : tok.stop = offset + x.byteLength) : uncommented toks offset x = [] := by
  rw [uncommented, List.filter_eq_nil_iff.2, List.map_nil]
  rintro ⟨c, n⟩ hc
  obtain ⟨hle, hlt⟩ := mem_located hc
  simp only [Bool.not_eq_true', Bool.not_eq_false, List.any_eq_true, Bool.and_eq_true, beq_iff_eq,
    Token.covers, decide_eq_true_eq]
  exact ⟨tok, h, hk, by omega, by omega⟩

lemma uncommented_append_of_le (h : ∀ tok ∈ toks, tok.stop ≤ offset) (toks' : List Token)
    (t : Text) : uncommented (toks ++ toks') offset t = uncommented toks' offset t := by
  rw [uncommented, uncommented]
  refine congrArg _ (List.filter_congr ?_)
  rintro ⟨c, n⟩ hc
  obtain ⟨hle, -⟩ := mem_located hc
  have hnone : toks.any (fun tok => tok.kind == .comment && tok.covers n) = false := by
    simp only [List.any_eq_false, Bool.and_eq_true, beq_iff_eq, not_and, Token.covers,
      decide_eq_true_eq]
    rintro tok htok - -
    have hstop := h tok htok
    omega
  rw [List.any_append, hnone, Bool.false_or]

lemma le_start_of_mem_tokensFrom (h : tok ∈ tokensFrom 0 offset t) : offset ≤ tok.start := by
  obtain ⟨a, b, -, hstart⟩ := mem_tokensFrom h
  omega

lemma uncommented_munch (hne : t ≠ []) (offset : Nat) :
    uncommented (tokensFrom 0 offset t) offset t =
      (if (munch t).kind? = some .comment then [] else t.take (munch t).size) ++
        uncommented
          (tokensFrom 0 (offset + Text.byteLength (t.take (munch t).size)) (t.drop (munch t).size))
          (offset + Text.byteLength (t.take (munch t).size)) (t.drop (munch t).size) := by
  have hsplit := tokensFrom_munch hne offset
  generalize hx : t.take (munch t).size = x at hsplit ⊢
  generalize hy : t.drop (munch t).size = y at hsplit ⊢
  have ht : t = x ++ y := by rw [← hx, ← hy, List.take_append_drop]
  have hcut (toks : List Token) : uncommented toks offset t =
      uncommented toks offset x ++ uncommented toks (offset + Text.byteLength x) y := by
    rw [ht, uncommented_append]
  rw [hsplit, hcut]
  congr 1
  · split
    case isTrue hk =>
      rw [hk]
      exact uncommented_eq_nil List.mem_cons_self rfl rfl rfl
    case isFalse hk =>
      refine uncommented_eq_self fun tok htok hcomment => ?_
      rcases List.mem_append.1 htok with htok | htok
      · obtain ⟨kind, hkind, rfl⟩ := Option.map_eq_some_iff.1 (Option.mem_toList.1 htok)
        rw [hkind] at hk
        exact absurd (congrArg some hcomment) hk
      · exact .inr (le_start_of_mem_tokensFrom htok)
  · refine uncommented_append_of_le (fun tok htok => ?_) _ y
    obtain ⟨kind, hkind, rfl⟩ := Option.map_eq_some_iff.1 (Option.mem_toList.1 htok)
    exact Nat.le_refl _

end Uncommented

/-! ## What follows a token -/

/-- What follows a token, with comments and without them: a comment leaves the end of its line
behind, and the rest begins as it did. -/
inductive Edge : Text → Text → Prop
  | nil : Edge [] []
  | comment {u v : Text} (hv : ∀ c ∈ v.head?, c = '\n') : Edge ('#' :: u) v
  | same {c : Char} {u v : Text} (hsecond : c = '\\' → u.head? = v.head?) : Edge (c :: u) (c :: v)

section Word

variable {s : WordState} {x y y' u v : Text} {c : Char}

lemma munch_quote (hc : c = '\'' ∨ c = '"') (h : ∀ v, v <+: c :: u → v ≠ [] →
    ¬ WordState.start.Accepts v) : (munch (c :: u)).kind? = some .unexpected := by
  have hword : munch (c :: u) = munchWord (c :: u) := by
    rcases hc with rfl | rfl <;> rfl
  rw [hword]
  rcases munchWord_spec (c :: u) with ⟨-, hkind⟩ | ⟨hmem, -, -⟩
  · exact hkind
  · have haccepts := WordState.accepts_iff.2 hmem
    refine absurd haccepts (h _ (List.take_prefix _ _) fun hnil => ?_)
    rw [hnil] at haccepts
    obtain ⟨s', hrun, hs'⟩ := haccepts
    obtain rfl := Option.some_inj.1 hrun
    cases hs'

lemma accepts_singleton {s' : WordState} (h : s.next? c = some s') (hs' : s'.isComplete = true) :
    s.Accepts [c] :=
  ⟨s', by rw [WordState.run?, h]; rfl, hs'⟩

/-- The character behind a backslash completes a word, if any text behind the backslash does. -/
lemma accepts_escaped {s' : WordState} (hnext : s.next? '\\' = some .escape)
    (h : WordState.escape.run? (c :: u) = some s') : s.Accepts ['\\', c] := by
  rw [WordState.run?] at h
  obtain ⟨s₁, hnext₁, -⟩ := Option.bind_eq_some_iff.1 h
  have hs₁ : s₁ = .bare false := by
    simp only [WordState.next?] at hnext₁
    split at hnext₁
    · cases hnext₁
    · exact (Option.some_inj.1 hnext₁).symm
  subst hs₁
  refine ⟨.bare false, ?_, rfl⟩
  rw [WordState.run?, hnext, Option.bind_some, WordState.run?, hnext₁]
  rfl

lemma accepts_of_start {s' : WordState} (hstart : WordState.start.next? c = some s')
    (hnext : s.next? c = some s') (h : WordState.start.Accepts (c :: u)) : s.Accepts (c :: u) := by
  obtain ⟨s'', hrun, hs''⟩ := h
  rw [WordState.run?, hstart] at hrun
  exact ⟨s'', by rw [WordState.run?, hnext]; exact hrun, hs''⟩

/-- A word that does not go on with what follows does not go on without the comments either. -/
lemma not_accepts_of_edge (hs : s.isComplete = true) (hmax : ∀ v, v <+: y → v ≠ [] → ¬ s.Accepts v)
    (hy : y ≠ [] → (munch y).kind? ≠ some .unexpected) (h : Edge y y') :
    ∀ v, v <+: y' → v ≠ [] → ¬ s.Accepts v := by
  intro v hv hne haccepts
  cases h with
  | nil => exact hne (List.prefix_nil.1 hv)
  | @comment u =>
    -- a hash would go on with the word
    refine hmax ['#'] (by simp) (List.cons_ne_nil _ _) ⟨.bare false, ?_, rfl⟩
    cases s with
    | bare angle => cases angle <;> decide
    | _ => cases hs
  | @same c u u' hsecond =>
    obtain ⟨d, w, rfl⟩ := List.exists_cons_of_ne_nil hne
    obtain ⟨rfl, hw⟩ := List.cons_prefix_cons.1 hv
    obtain ⟨s'', hrun, hs''⟩ := haccepts
    rw [WordState.run?] at hrun
    obtain ⟨s', hnext, hrun⟩ := Option.bind_eq_some_iff.1 hrun
    have hopen : s'.isComplete = false := by
      by_contra hcomplete
      exact hmax [d] (by simp) (List.cons_ne_nil _ _)
        (accepts_singleton hnext (by simpa using hcomplete))
    obtain ⟨hstart, hquote⟩ := WordState.next?_start hs hnext hopen
    by_cases hc : d = '\\'
    · -- the escaped character follows in either case
      subst hc
      obtain rfl : WordState.escape = s' := Option.some_inj.1 hstart
      cases w with
      | nil =>
        obtain rfl := Option.some_inj.1 hrun
        cases hs''
      | cons e w =>
        obtain ⟨rest, rfl⟩ := hw
        obtain ⟨u, rfl⟩ := List.head?_eq_some_iff.1 (hsecond rfl)
        exact hmax ['\\', e] (by simp) (List.cons_ne_nil _ _) (accepts_escaped hnext hrun)
    · -- the quote is not closed by what follows with its comments
      have hquote : d = '\'' ∨ d = '"' := by
        rcases hquote with hd | hd | hd
        · exact .inl hd
        · exact .inr hd
        · exact absurd hd hc
      refine hy (List.cons_ne_nil _ _) (munch_quote hquote fun v hv hne haccepts => ?_)
      obtain ⟨e, w', rfl⟩ := List.exists_cons_of_ne_nil hne
      obtain ⟨rfl, -⟩ := List.cons_prefix_cons.1 hv
      exact hmax _ hv (List.cons_ne_nil _ _) (accepts_of_start hstart hnext haccepts)

lemma munchWord_of_edge (hx : munchWord (x ++ y) = ⟨some .word, x.length⟩)
    (hy : y ≠ [] → (munch y).kind? ≠ some .unexpected) (h : Edge y y') :
    munchWord (x ++ y') = ⟨some .word, x.length⟩ := by
  obtain ⟨-, hkind⟩ | ⟨hmem, hlongest, -⟩ := munchWord_spec (x ++ y)
  · rw [hx] at hkind
    cases hkind
  rw [hx, List.take_left] at hmem
  rw [hx] at hlongest
  obtain ⟨s, hrun, hs⟩ := WordState.accepts_iff.2 hmem
  have hne : x ≠ [] := by
    rintro rfl
    obtain rfl := Option.some_inj.1 hrun
    cases hs
  have hmax : ∀ v, v <+: y → v ≠ [] → ¬ s.Accepts v := by
    rintro v hv hvne ⟨s', hrun', hs'⟩
    have hle := hlongest (x ++ v) ((List.prefix_append_right_inj x).2 hv)
      (WordState.accepts_iff.1 ⟨s', by rw [WordState.run?_append, hrun]; exact hrun', hs'⟩)
    rw [List.length_append] at hle
    have hpos := List.length_pos_iff.2 hvne
    simp only at hle
    omega
  have hmax' := not_accepts_of_edge hs hmax hy h
  have hmatched : (wordExtent (x ++ y')).matched = x.length := by
    have hle := length_le_matched_of_accepts (Nat.le_refl 0) (List.prefix_append x y') hne
      ⟨s, hrun, hs⟩
    rw [Nat.zero_add] at hle
    have hpos := List.length_pos_iff.2 hne
    obtain hzero | ⟨u, -, hu, hlength, s', hrun', hs'⟩ := @accepts_of_matched .start (x ++ y') 0 0
    · rw [hzero] at hle
      omega
    · rw [Nat.zero_add] at hlength
      obtain ⟨v, rfl⟩ := List.prefix_of_prefix_length_le (List.prefix_append x y') hu
        (by rwa [← hlength])
      by_cases hv : v = []
      · rw [wordExtent, hlength, hv, List.append_nil]
      · rw [WordState.run?_append, hrun] at hrun'
        exact absurd ⟨s', hrun', hs'⟩ (hmax' v ((List.prefix_append_right_inj x).1 hu) hv)
  rw [munchWord]
  simp only [hmatched]
  rw [if_neg (by simpa using hne)]

end Word

/-! ## The longest match before an edge -/

section Munch

variable {x y y' : Text} {c : Char} {kind? : Option TokenKind}

/-- Only the end of a line is at the edge for the sake of a comment. -/
lemma Edge.head (h : Edge y y') (hc : c ≠ '\n') {u : Text} (hy' : y' = c :: u) :
    ∃ v, y = c :: v := by
  cases h with
  | nil => cases hy'
  | comment hv =>
    subst hy'
    exact absurd (hv c rfl) hc
  | same =>
    obtain ⟨rfl, -⟩ := List.cons.inj hy'
    exact ⟨_, rfl⟩

lemma takeWhile_of_edge (h : Edge y y')
    (hlength : ((x ++ y).takeWhile isSpace).length = x.length) :
    ((x ++ y').takeWhile isSpace).length = x.length := by
  induction x with
  | nil =>
    have hstop : ∀ c ∈ y'.head?, isSpace c = false := by
      cases h with
      | nil => simp
      | comment hv =>
        intro c hc
        rw [hv c hc]
        decide
      | @same c u v =>
        have hc : isSpace c = false := by
          by_contra hc
          simp [List.takeWhile_cons_of_pos (show isSpace c = true by simpa using hc)] at hlength
        simpa using hc
    cases y' with
    | nil => rfl
    | cons c v => rw [List.nil_append, List.takeWhile_cons, hstop c rfl]; rfl
  | cons c x ih =>
    rw [List.cons_append, List.takeWhile_cons] at hlength
    by_cases hc : isSpace c = true
    · rw [if_pos hc, List.length_cons, List.length_cons] at hlength
      rw [List.cons_append, List.takeWhile_cons_of_pos hc, List.length_cons, List.length_cons,
        ih (by omega)]
    · rw [if_neg hc] at hlength
      cases hlength

/-- A word that is taken before an edge is taken also without the comments behind it. -/
lemma munch_of_edge_of_munchWord (hx : munchWord (c :: (x ++ y)) = ⟨kind?, x.length + 1⟩)
    (hk : kind? ≠ some .unexpected) (hspace : ¬ isSpace c = true) (hamp : c ≠ '&') (hbar : c ≠ '|')
    (hsemicolon : c ≠ ';') (hline : c ≠ '\n')
    (hescape : ∀ u, c = '\\' → x ++ y = '\n' :: u → False)
    (hescapeReturn : ∀ u, c = '\\' → x ++ y = '\r' :: '\n' :: u → False) (hhash : c ≠ '#')
    (hy : y ≠ [] → (munch y).kind? ≠ some .unexpected) (h : Edge y y') :
    munch (c :: (x ++ y')) = ⟨kind?, x.length + 1⟩ := by
  obtain ⟨-, hunexpected⟩ | ⟨hmem, hlongest, hkind⟩ := munchWord_spec (c :: (x ++ y))
  · rw [hx] at hunexpected
    exact absurd hunexpected hk
  rw [hx] at hmem hlongest hkind
  rw [List.take_succ_cons, List.take_left] at hmem
  obtain ⟨s, hrun, hs⟩ := WordState.accepts_iff.2 hmem
  subst hkind
  have hword : munchWord (c :: x ++ y') = ⟨some .word, (c :: x).length⟩ :=
    munchWord_of_edge (x := c :: x) hx hy h
  -- a word begins with no sign of a line, whatever follows the first edge
  have hreturn : c ≠ '\r' := by
    rintro rfl
    cases hrun
  have hbackslash : c = '\\' → x ≠ [] := by
    rintro rfl rfl
    obtain rfl := Option.some_inj.1 hrun
    cases hs
  have hfeed : ∀ u, c = '\\' → x ++ y' = '\n' :: u → False := by
    intro u hc hu
    obtain ⟨d, x, rfl⟩ := List.exists_cons_of_ne_nil (hbackslash hc)
    rw [List.cons_append] at hu
    obtain ⟨rfl, -⟩ := List.cons.inj hu
    exact hescape _ hc rfl
  have hreturnFeed : ∀ u, c = '\\' → x ++ y' = '\r' :: '\n' :: u → False := by
    intro u hc hu
    obtain ⟨d, x, rfl⟩ := List.exists_cons_of_ne_nil (hbackslash hc)
    rw [List.cons_append] at hu
    obtain ⟨rfl, htail⟩ := List.cons.inj hu
    cases x with
    | cons e x =>
      rw [List.cons_append] at htail
      obtain ⟨rfl, -⟩ := List.cons.inj htail
      exact hescapeReturn _ hc rfl
    | nil =>
      rw [List.nil_append] at htail
      subst htail
      cases h with
      | same => exact hescapeReturn _ hc rfl
      | comment =>
        -- a hash would go on with the word
        subst hc
        have hle := hlongest ['\\', '\r', '#'] (by simp)
          (WordState.accepts_iff.1 ⟨.bare false, by decide, rfl⟩)
        simp at hle
  have hmunch := munch.eq_11 c (x ++ y') (fun u hc => absurd hc hamp) hamp
    (fun u hc => absurd hc hbar) hbar hsemicolon hline (fun u hc => absurd hc hreturn) hfeed
    hreturnFeed hhash
  rw [hmunch, if_neg hspace]
  exact hword

/-- What is taken before an edge is taken also without the comments behind it. -/
theorem munch_of_edge (hne : x ≠ []) (hx : munch (x ++ y) = ⟨kind?, x.length⟩)
    (hk : kind? ≠ some .unexpected) (hcomment : kind? ≠ some .comment)
    (hy : y ≠ [] → (munch y).kind? ≠ some .unexpected) (h : Edge y y') :
    munch (x ++ y') = ⟨kind?, x.length⟩ := by
  generalize ht : x ++ y = t at hx
  -- a sign of fixed length is all that is taken
  have hsign {z rest : Text} (hz : t = z ++ rest) (hlength : z.length = x.length) :
      x = z ∧ y = rest := List.append_inj (ht.trans hz) hlength.symm
  unfold munch at hx
  split at hx
  case h_1 rest =>
    obtain ⟨rfl, hlength⟩ := Munch.mk.inj hx
    obtain ⟨rfl, rfl⟩ := hsign (z := ['&', '&']) rfl hlength
    rfl
  case h_2 rest hamp =>
    obtain ⟨rfl, hlength⟩ := Munch.mk.inj hx
    obtain ⟨rfl, rfl⟩ := hsign (z := ['&']) rfl hlength
    refine munch.eq_2 y' fun u hu => ?_
    obtain ⟨v, hv⟩ := h.head (by decide) hu
    exact hamp v hv
  case h_3 rest =>
    obtain ⟨rfl, hlength⟩ := Munch.mk.inj hx
    obtain ⟨rfl, rfl⟩ := hsign (z := ['|', '|']) rfl hlength
    rfl
  case h_4 rest hbar =>
    obtain ⟨rfl, hlength⟩ := Munch.mk.inj hx
    obtain ⟨rfl, rfl⟩ := hsign (z := ['|']) rfl hlength
    refine munch.eq_4 y' fun u hu => ?_
    obtain ⟨v, hv⟩ := h.head (by decide) hu
    exact hbar v hv
  case h_5 rest =>
    obtain ⟨rfl, hlength⟩ := Munch.mk.inj hx
    obtain ⟨rfl, rfl⟩ := hsign (z := [';']) rfl hlength
    rfl
  case h_6 rest =>
    obtain ⟨rfl, hlength⟩ := Munch.mk.inj hx
    obtain ⟨rfl, rfl⟩ := hsign (z := ['\n']) rfl hlength
    rfl
  case h_7 rest =>
    obtain ⟨rfl, hlength⟩ := Munch.mk.inj hx
    obtain ⟨rfl, rfl⟩ := hsign (z := ['\r', '\n']) rfl hlength
    rfl
  case h_8 rest =>
    obtain ⟨rfl, hlength⟩ := Munch.mk.inj hx
    obtain ⟨rfl, rfl⟩ := hsign (z := ['\\', '\n']) rfl hlength
    rfl
  case h_9 rest =>
    obtain ⟨rfl, hlength⟩ := Munch.mk.inj hx
    obtain ⟨rfl, rfl⟩ := hsign (z := ['\\', '\r', '\n']) rfl hlength
    rfl
  case h_10 rest =>
    exact absurd (Munch.mk.inj hx).1.symm hcomment
  case h_11 c t hand hamp hor hbar hsemicolon hline hreturnLine hescape hescapeReturn hhash =>
    obtain ⟨d, x, rfl⟩ := List.exists_cons_of_ne_nil hne
    rw [List.cons_append] at ht
    obtain ⟨rfl, rfl⟩ := List.cons.inj ht
    rw [List.length_cons] at hx ⊢
    split at hx
    case isTrue hspace =>
      obtain ⟨rfl, hlength⟩ := Munch.mk.inj hx
      have hsize : munch (d :: (x ++ y')) = ⟨none, 1 + ((x ++ y').takeWhile isSpace).length⟩ := by
        simp only [isSpace, Bool.or_eq_true, beq_iff_eq] at hspace
        rcases hspace with rfl | rfl <;> rfl
      rw [List.cons_append, hsize, takeWhile_of_edge h (by omega), Nat.add_comm]
    case isFalse hspace =>
      exact munch_of_edge_of_munchWord hx hk hspace hamp hbar hsemicolon hline
        (fun u hc hu => hescape u hc hu) (fun u hc hu => hescapeReturn u hc hu) hhash hy h
  case h_12 =>
    exact absurd (List.append_eq_nil_iff.1 ht).1 hne

end Munch

/-! ## The tokens that are left -/

section Tokens

variable {t u : Text} {offset : Nat} {source : Text}

/-- No token is unexpected. -/
def Recognised (toks : List Token) : Prop := ∀ tok ∈ toks, tok.kind ≠ .unexpected

instance (toks : List Token) : Decidable (Recognised toks) :=
  inferInstanceAs (Decidable (∀ tok ∈ toks, tok.kind ≠ .unexpected))

lemma Recognised.munch_ne (h : Recognised (tokensFrom 0 offset t)) (hne : t ≠ []) :
    (munch t).kind? ≠ some .unexpected := by
  intro hkind
  rw [tokensFrom_munch hne, hkind] at h
  exact h _ List.mem_cons_self rfl

lemma Recognised.drop (h : Recognised (tokensFrom 0 offset t)) (hne : t ≠ []) :
    Recognised (tokensFrom 0 (offset + Text.byteLength (t.take (munch t).size))
      (t.drop (munch t).size)) := by
  rw [tokensFrom_munch hne] at h
  exact fun tok htok => h tok (List.mem_append_right _ htok)

lemma two_le_size (hk : (munch ('\\' :: u)).kind? ≠ some .unexpected) :
    2 ≤ (munch ('\\' :: u)).size := by
  have hne := List.cons_ne_nil '\\' u
  have hpos := munch_size_pos hne
  have hlongest := munch_longest hne
  by_contra hlt
  have hsize : (munch ('\\' :: u)).size = 1 := by omega
  cases hkind : (munch ('\\' :: u)).kind? with
  | none =>
    have hmem := hlongest.skipped hkind
    rw [hsize] at hmem
    obtain ⟨c, w, heq, hall⟩ | heq | heq := skipped_cases hmem
    · obtain ⟨rfl, -⟩ := List.cons.inj heq
      exact absurd (hall '\\' List.mem_cons_self) (by decide)
    · cases heq
    · cases heq
  | some kind =>
    have hmem := hlongest.matched kind hkind (by simpa [hkind] using hk)
    rw [hsize] at hmem
    obtain ⟨c, w, heq, hbegins⟩ := exists_begins hmem
    obtain ⟨rfl, rfl⟩ := List.cons.inj heq
    cases hbegins with
    | word hword =>
      obtain ⟨s, hrun, hs⟩ := WordState.accepts_iff.2 hword
      obtain rfl := Option.some_inj.1 hrun
      cases hs

lemma head?_uncommented (h : ∀ c ∈ t.head?, c = '\n') :
    ∀ c ∈ (uncommented (tokensFrom 0 offset t) offset t).head?, c = '\n' := by
  cases t with
  | nil => exact h
  | cons d t =>
    obtain rfl := h d rfl
    rw [uncommented_munch (List.cons_ne_nil _ _)]
    rintro c ⟨⟩
    rfl

/-- Taking out the comments behind a token leaves an edge there. -/
lemma edge_uncommented (h : Recognised (tokensFrom 0 offset t)) :
    Edge t (uncommented (tokensFrom 0 offset t) offset t) := by
  by_cases hne : t = []
  · subst hne
    exact .nil
  rw [uncommented_munch hne]
  split
  case isTrue hk =>
    obtain ⟨u, rfl, hsize⟩ := munch_comment hk
    rw [List.nil_append]
    have hrest := @List.drop_left _ (u.takeWhile (· != '\n')) (u.dropWhile (· != '\n'))
    rw [List.takeWhile_append_dropWhile] at hrest
    refine .comment (head?_uncommented ?_)
    intro c hc
    rw [hsize, Nat.add_comm, List.drop_succ_cons, hrest] at hc
    exact head?_dropWhile_ne '\n' u c hc
  case isFalse =>
    have hpos := munch_size_pos hne
    have hk := h.munch_ne hne
    have hle := munch_size_le hne
    obtain ⟨c, u, rfl⟩ := List.exists_cons_of_ne_nil hne
    obtain ⟨n, hn⟩ := Nat.exists_eq_add_one_of_ne_zero hpos.ne'
    rw [hn, List.take_succ_cons, List.cons_append]
    refine .same ?_
    rintro rfl
    have htwo := two_le_size hk
    obtain ⟨m, rfl⟩ : ∃ m, n = m + 1 := ⟨n - 1, by omega⟩
    cases u with
    | nil =>
      rw [hn] at hle
      simp at hle
    | cons d u => rfl

/-- What the kinds and texts of the tokens are. -/
def Token.seen (tok : Token) : TokenKind × Text := (tok.kind, tok.text)

/-- A text without the comments among its tokens has the other tokens, in their order. -/
theorem map_seen_uncommented (h : Recognised (tokensFrom 0 offset t)) (offset' : Nat) :
    (tokensFrom 0 offset' (uncommented (tokensFrom 0 offset t) offset t)).map Token.seen =
      ((tokensFrom 0 offset t).filter (·.kind != .comment)).map Token.seen := by
  induction hlength : t.length using Nat.strong_induction_on generalizing t offset offset' with
  | _ n ih =>
    by_cases hne : t = []
    · subst hne
      rfl
    have hk := h.munch_ne hne
    have hdrop := h.drop hne
    have hpos := munch_size_pos hne
    have hle := munch_size_le hne
    have hrest := fun offset' => ih (t.drop (munch t).size).length
      (by rw [List.length_drop]; omega) hdrop offset' rfl
    have hedge := edge_uncommented hdrop
    rw [uncommented_munch hne, tokensFrom_munch hne offset]
    split
    case isTrue hcomment =>
      rw [List.nil_append, hrest, hcomment]
      rfl
    case isFalse hcomment =>
      generalize uncommented _ _ (t.drop (munch t).size) = y' at hrest hedge ⊢
      have hx : t.take (munch t).size ≠ [] := by
        rw [Ne, List.take_eq_nil_iff, not_or]
        exact ⟨hpos.ne', hne⟩
      have hsize : (t.take (munch t).size).length = (munch t).size := by
        rw [List.length_take]
        omega
      have hmunch : munch (t.take (munch t).size ++ y') = ⟨(munch t).kind?, _⟩ :=
        munch_of_edge hx (by rw [List.take_append_drop, hsize]) hk hcomment
          (fun hy => hdrop.munch_ne hy) hedge
      rw [tokensFrom_munch (List.append_ne_nil_of_left_ne_nil hx y'), hmunch]
      simp only [List.take_left, List.drop_left]
      rw [List.map_append, hrest, List.filter_append, List.map_append]
      cases hkind : (munch t).kind? with
      | none => rfl
      | some kind =>
        have hother : (kind != .comment) = true := by simpa [hkind] using hcomment
        simp [hother, Token.seen]

/-- A source without its comments has the other tokens, in their order. -/
theorem tokens_withoutComments (h : Recognised (tokens source)) :
    (tokens (withoutComments source)).map Token.seen =
      ((tokens source).filter (·.kind != .comment)).map Token.seen :=
  map_seen_uncommented h 0

/-- A source without its comments has the other terminals, in their order. -/
theorem symbols_withoutComments (h : Recognised (tokens source)) :
    (terminals (withoutComments source)).map Terminal.symbol =
      ((terminals source).filter (·.symbol != .comment)).map Terminal.symbol := by
  let symbolOf (x : TokenKind × Text) : Symbol := Token.symbol ⟨x.1, x.2, 0⟩
  have hsymbol (toks : List Token) : (toks.map Token.terminal).map Terminal.symbol =
      (toks.map Token.seen).map symbolOf := by
    rw [List.map_map, List.map_map]
    rfl
  have hfilter : (terminals source).filter (·.symbol != .comment) =
      ((tokens source).filter (·.kind != .comment)).map Token.terminal := by
    rw [terminals, List.filter_map]
    refine congrArg _ (List.filter_congr fun tok _ => ?_)
    rw [Function.comp_apply, Token.terminal, Token.symbol]
    cases tok.kind <;> rfl
  rw [hfilter, hsymbol, ← tokens_withoutComments h, terminals, hsymbol]

end Tokens

end FishScript
