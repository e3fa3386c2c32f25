/-
# Comments end with their lines

A comment reaches to the end of its line, so what follows it is a line feed, or nothing
(`endsComments_terminals`). The nesting limit keeps this: it puts nothing between a comment and
the line feed behind it.
-/
import Mathlib
import FishScript.Proofs.Token.Slices

namespace FishScript

/-- If the first is a comment, the next one is the end of a line. -/
def EndsComment (t next : Terminal) : Prop := t.symbol = .comment → next.symbol = .newline

/-! ## Tokens -/

lemma head?_dropWhile_ne (c : Char) (t : Text) : ∀ d ∈ (t.dropWhile (· != c)).head?, d = c := by
  intro d hd
  have hhead := List.head?_dropWhile_not (p := fun d => d != c) (l := t)
  rw [Option.mem_def.1 hd] at hhead
  simpa using hhead

lemma munch_comment {t : Text} (h : (munch t).kind? = some .comment) :
    ∃ u, t = '#' :: u ∧ (munch t).size = 1 + (u.takeWhile (· != '\n')).length := by
  unfold munch at h ⊢
  split at h <;> try cases h
  case h_10 u => exact ⟨u, rfl, rfl⟩
  case h_11 c t _ _ _ _ _ _ _ _ _ _ =>
    exfalso
    split at h
    · cases h
    · unfold munchWord at h
      simp only at h
      split at h <;> cases h

lemma head?_tokensFrom_newline (offset : Nat) (t : Text) :
    ∃ rest, tokensFrom 0 offset ('\n' :: t) = ⟨.newline, ['\n'], offset⟩ :: rest :=
  ⟨_, rfl⟩

lemma tokensFrom_dropWhile (offset : Nat) (t : Text) :
    ∀ tok ∈ (tokensFrom 0 offset (t.dropWhile (· != '\n'))).head?, tok.kind = .newline := by
  cases h : t.dropWhile (· != '\n') with
  | nil =>
    intro tok htok
    cases htok
  | cons c rest =>
    obtain rfl := head?_dropWhile_ne '\n' t c (by rw [h]; rfl)
    obtain ⟨toks, htoks⟩ := head?_tokensFrom_newline offset rest
    rw [htoks]
    rintro tok ⟨⟩
    rfl

/-- Among the tokens of a text a comment is followed by the end of its line. -/
lemma isChain_tokensFrom : ∀ (t : Text) (pending offset : Nat),
    (tokensFrom pending offset t).IsChain fun tok next => tok.kind = .comment → next.kind = .newline
  | [], pending, offset => .nil
  | c :: t, n + 1, offset => isChain_tokensFrom t n _
  | c :: t, 0, offset => by
    have hrest := isChain_tokensFrom t ((munch (c :: t)).size - 1) (offset + c.utf8Size)
    rw [tokensFrom]
    split
    case h_2 => exact hrest
    case h_1 kind hkind =>
      refine List.isChain_cons.2 ⟨?_, hrest⟩
      rintro next hnext rfl
      obtain ⟨u, hu, hsize⟩ := munch_comment hkind
      obtain ⟨rfl, rfl⟩ := List.cons.inj hu
      rw [hsize, Nat.add_sub_cancel_left] at hnext
      nth_rewrite 2 [← List.takeWhile_append_dropWhile (p := (· != '\n')) (l := t)] at hnext
      rw [tokensFrom_skip rfl] at hnext
      exact tokensFrom_dropWhile _ t next hnext

lemma Token.symbol_eq_comment {tok : Token} (h : tok.symbol = .comment) : tok.kind = .comment := by
  unfold Token.symbol at h
  split at h <;> try cases h
  assumption

/-- Among the terminals of a source a comment is followed by the end of its line. -/
theorem endsComments_terminals (source : Text) : (terminals source).IsChain EndsComment := by
  rw [terminals, List.isChain_map]
  refine (isChain_tokensFrom source 0 0).imp ?_
  intro tok next h hcomment
  have hnewline : next.kind = .newline := h (Token.symbol_eq_comment hcomment)
  simp only [Token.terminal, Token.symbol, hnewline]

/-! ## Behind the nesting limit -/

/-- The end of a line is not folded if it begins what is limited. -/
lemma limitFrom_newline {t : Terminal} (ht : t.symbol = .newline) (scan : NestingScan)
    (depth : Nat) (ts : List Terminal) :
    limitFrom scan depth none (t :: ts) =
      t :: limitFrom (scan.next t.symbol) depth none ts := by
  simp only [limitFrom, ht, NestingScan.effect]

lemma isChain_limitFrom : ∀ {ts : List Terminal} (scan : NestingScan) (depth : Nat)
    (fold? : Option Fold), ts.IsChain EndsComment →
      (limitFrom scan depth fold? ts).IsChain EndsComment
  | [], scan, depth, none, h => .nil
  | [], scan, depth, some fold, h => List.isChain_singleton _
  | t :: ts, scan, depth, fold?, h => by
    obtain ⟨hnext, hts⟩ := List.isChain_cons.1 h
    -- a terminal that is kept stands before a line feed if it is a comment
    have hkeep : ∀ depth', (t :: limitFrom (scan.next t.symbol) depth' none ts).IsChain
        EndsComment := by
      intro depth'
      refine List.isChain_cons.2 ⟨?_, isChain_limitFrom _ depth' none hts⟩
      intro u hu hcomment
      rcases ts with _ | ⟨v, ts⟩
      · cases hu
      · have hv : v.symbol = .newline := hnext v rfl hcomment
        rw [limitFrom_newline hv, List.head?_cons, Option.mem_some_iff] at hu
        rw [← hu]
        exact hv
    unfold limitFrom
    simp only
    split
    · split
      · refine List.isChain_cons.2 ⟨?_, isChain_limitFrom _ depth none hts⟩
        rintro u hu ⟨⟩
      · exact isChain_limitFrom _ depth _ hts
    · split
      · exact isChain_limitFrom _ depth _ hts
      · exact hkeep _
    · exact hkeep _
    · exact hkeep _

/-- Among the terminals that the grammar sees a comment is followed by the end of its line. -/
theorem endsComments_limitNesting (source : Text) :
    (limitNesting (terminals source)).IsChain EndsComment :=
  isChain_limitFrom _ 0 none (endsComments_terminals source)

end FishScript
