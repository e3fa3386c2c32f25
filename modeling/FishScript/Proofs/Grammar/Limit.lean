/-
# Where the nesting limit holds

The nesting limit keeps its promise for a source if and only if the exact scan of the grammar's
blocks never counts more blocks than the limit allows (`parse_depth_le_iff`). To see when this is
so, the scan of the limit is compared with the exact one. In all but two situations it knows of
every block that the grammar has open (`BlockScan.Agrees.step`):

* behind a bar it takes the words `and` and `or` for conjunctions, where the grammar takes them for
  names of commands, so that an `end` among their arguments seems to close a block;
* behind a `case` that belongs to no choice it overlooks an `else` on the same line, and with it a
  block that is opened right after.

A source with neither of them stays within the limit. Not every source does: when such an `end`
stands in the innermost of as many blocks as the limit allows, the next block is one too many
(`exists_lineage_beyond_limit`).
-/
import Mathlib
import FishScript.Proofs.Grammar.Depth

namespace FishScript

/-! ## The depth that the limit counts -/

namespace NestingScan

/-- The number of open blocks after a symbol. -/
def depthAfter (n : NestingScan) (depth : Nat) (x : Symbol) : Nat :=
  match n.effect x with
  | .opens => depth + 1
  | .closes => depth - 1
  | .same => depth

/-- The number of open blocks after some terminals. -/
def count (n : NestingScan) (depth : Nat) : List Terminal → Nat
  | [] => depth
  | t :: ts => count (n.next t.symbol) (n.depthAfter depth t.symbol) ts

/-! ### What words do -/

section Effects

variable {n : NestingScan} {w : Text}

lemma effect_idle (hn : n.commandPosition = false) (w : Text) : n.effect (.word w) = .same := by
  simp [effect, wordEffect, hn]

/-- Where a command may begin a word that opens blocks opens one, except an `if` behind `else`. -/
lemma effect_opener {b : Block} (hn : n.commandPosition = true)
    (hif : b = .ifBlock → n.afterElse = false) : n.effect (.word b.opener.toList) = .opens := by
  obtain ⟨commandPosition, afterElse⟩ := n
  obtain rfl : commandPosition = true := hn
  cases b <;> cases afterElse <;>
    simp_all [effect, wordEffect, Block.ofOpener?, Block.all, Block.opener]

lemma effect_closing (hn : n.commandPosition = true) (c : Closing) :
    n.effect (.word c.word.toList) = if c = .blockEnd then .closes else .same := by
  obtain ⟨commandPosition, afterElse⟩ := n
  obtain rfl : commandPosition = true := hn
  cases c <;> simp [effect, wordEffect, Closing.word, Block.ofOpener?, Block.all, Block.opener]

lemma effect_plain (hc : Closing.ofWord? w = none) (hb : Block.ofOpener? w = none) :
    n.effect (.word w) = .same := by
  have hend : (w == "end".toList) = false := by
    rw [beq_eq_false_iff_ne]
    rintro rfl
    cases hc
  simp only [effect, wordEffect, hend, hb]
  cases n.commandPosition <;> rfl

end Effects

/-- A word that closes a block is the word `end`, after which no command begins. -/
lemma next_of_closes {n : NestingScan} {x : Symbol} (h : n.effect x = .closes) :
    n.next x = ⟨false, false⟩ := by
  cases x with
  | word w =>
    change n.wordEffect w = .closes at h
    unfold wordEffect at h
    split at h
    · cases h
    · split at h
      · rename_i hw
        rw [beq_iff_eq.1 hw]
        simp [next, leadsCommand]
      · split at h <;> cases h
  | _ => cases h

/-- The limited list never takes the count beyond the limit. -/
lemma count_limitFrom_le : ∀ {ts : List Terminal} {n n' : NestingScan} {depth : Nat}
    {fold? : Option Fold}, depth ≤ maxNesting → (fold? = none → n' = n) →
    (∀ fold, fold? = some fold → fold.depth ≠ 0) →
    ∀ us, us <+: limitFrom n depth fold? ts → n'.count depth us ≤ maxNesting
  | [], n, n', depth, none, hd, _, _, us, hus => by
    rw [List.prefix_nil.1 hus]
    exact hd
  | [], n, n', depth, some fold, hd, _, _, us, hus => by
    rcases List.prefix_cons_iff.1 hus with rfl | ⟨vs, rfl, hvs⟩
    · exact hd
    · rw [List.prefix_nil.1 hvs]
      exact hd
  | t :: ts, n, n', depth, some fold, hd, _, hfold, us, hus => by
    unfold limitFrom at hus
    simp only at hus
    split at hus
    · rename_i hzero
      -- the block that is folded ends here, and both scans go on alike
      have hcloses : n.effect t.symbol = .closes := by
        have hne := hfold fold rfl
        cases he : n.effect t.symbol with
        | closes => rfl
        | opens => simp [Fold.depthAfter, he] at hzero
        | same => exact absurd (by simpa [Fold.depthAfter, he] using hzero) hne
      rcases List.prefix_cons_iff.1 hus with rfl | ⟨vs, rfl, hvs⟩
      · exact hd
      · exact count_limitFrom_le hd (fun _ => (next_of_closes hcloses).symm) (by simp) vs hvs
    · rename_i hne
      exact count_limitFrom_le hd (by simp) (by simpa using hne) us hus
  | t :: ts, n, n', depth, none, hd, hn, _, us, hus => by
    obtain rfl := hn rfl
    have htake : ∀ {depth'}, n'.depthAfter depth t.symbol = depth' → depth' ≤ maxNesting →
        us <+: t :: limitFrom (n'.next t.symbol) depth' none ts →
        n'.count depth us ≤ maxNesting := by
      intro depth' hafter hd' hus
      rcases List.prefix_cons_iff.1 hus with rfl | ⟨vs, rfl, hvs⟩
      · exact hd
      · rw [count, hafter]
        exact count_limitFrom_le hd' (fun _ => rfl) (by simp) vs hvs
    cases he : n'.effect t.symbol with
    | opens =>
      simp only [limitFrom, he] at hus
      split at hus
      · exact count_limitFrom_le hd (by simp) (by simp) us hus
      · exact htake (by simp [depthAfter, he]) (by omega) hus
    | closes =>
      simp only [limitFrom, he] at hus
      exact htake (by simp [depthAfter, he]) (by omega) hus
    | same =>
      simp only [limitFrom, he] at hus
      exact htake (by simp [depthAfter, he]) hd hus

/-! ### Terminals that the limit leaves alone -/

/-- The limit changes nothing while the count stays within it, and goes on from there. -/
lemma limitFrom_append {ts : List Terminal} {n : NestingScan} {depth : Nat}
    (h : ∀ us, us <+: ts → n.count depth us ≤ maxNesting) (rest : List Terminal) :
    limitFrom n depth none (ts ++ rest) =
      ts ++ limitFrom (ts.foldl (fun n t => n.next t.symbol) n) (n.count depth ts) none rest := by
  induction ts generalizing n depth with
  | nil => rfl
  | cons t ts ih =>
    have hbelow : ∀ us, us <+: ts →
        (n.next t.symbol).count (n.depthAfter depth t.symbol) us ≤ maxNesting :=
      fun us hus => h (t :: us) (List.cons_prefix_cons.2 ⟨rfl, hus⟩)
    have hfirst : n.depthAfter depth t.symbol ≤ maxNesting :=
      h [t] (List.cons_prefix_cons.2 ⟨rfl, List.nil_prefix⟩)
    rw [List.foldl_cons, count, List.cons_append, List.cons_append, ← ih hbelow]
    unfold depthAfter at hfirst ⊢
    cases he : n.effect t.symbol with
    | opens =>
      rw [he] at hfirst
      simp only at hfirst
      simp only [limitFrom, he]
      rw [if_neg (by omega)]
    | closes | same => simp only [limitFrom, he]

lemma limitFrom_eq_self {ts : List Terminal} {n : NestingScan} {depth : Nat}
    (h : ∀ us, us <+: ts → n.count depth us ≤ maxNesting) : limitFrom n depth none ts = ts := by
  have happend := limitFrom_append h []
  rw [List.append_nil] at happend
  rw [happend, limitFrom, List.append_nil]

/-- The limit changes nothing if and only if the count stays within it. -/
theorem limitNesting_eq_self_iff {ts : List Terminal} :
    limitNesting ts = ts ↔ ∀ us, us <+: ts → initial.count 0 us ≤ maxNesting := by
  constructor
  · intro h us hus
    rw [← h] at hus
    exact count_limitFrom_le (Nat.zero_le _) (fun _ => rfl) (by simp) us hus
  · exact limitFrom_eq_self

lemma exists_garbage_of_fold : ∀ (ts : List Terminal) (n : NestingScan) (depth : Nat) (fold : Fold),
    ∃ t ∈ limitFrom n depth (some fold) ts, t.symbol = .garbage
  | [], n, depth, fold => ⟨fold.terminal, List.mem_singleton_self _, rfl⟩
  | u :: ts, n, depth, fold => by
    unfold limitFrom
    simp only
    split
    · exact ⟨_, List.mem_cons_self, rfl⟩
    · exact exists_garbage_of_fold ts _ _ _

lemma limitFrom_eq_self_of_ne_garbage {ts : List Terminal} {n : NestingScan} {depth : Nat}
    (h : ∀ t ∈ limitFrom n depth none ts, t.symbol ≠ .garbage) :
    limitFrom n depth none ts = ts := by
  induction ts generalizing n depth with
  | nil => rfl
  | cons t ts ih =>
    unfold limitFrom at h ⊢
    cases he : n.effect t.symbol with
    | opens =>
      simp only [he] at h ⊢
      by_cases hd : depth = maxNesting
      · -- the block would be folded, and its garbage be left
        rw [if_pos hd] at h
        obtain ⟨u, hu, hg⟩ := exists_garbage_of_fold ts (n.next t.symbol) depth
          ⟨1, t.span.start, t.span.stop⟩
        exact absurd hg (h u hu)
      · rw [if_neg hd] at h ⊢
        rw [ih (List.forall_mem_cons.1 h).2]
    | closes | same =>
      simp only [he] at h ⊢
      rw [ih (List.forall_mem_cons.1 h).2]

end NestingScan

/-! ## Two scans -/

namespace BlockScan

/-- The scan of the limit, which counts `depth` open blocks, knows of every block that is open for
the grammar, and takes no word for the end of a block that is none. -/
def Agrees (n : NestingScan) (depth : Nat) (b : BlockScan) : Prop :=
  b.levels.length ≤ depth ∧
    match b.place with
    | .command | .stage => n = ⟨true, false⟩
    | .afterElse => n = ⟨true, true⟩ ∧ b.levels ≠ []
    | .arguments => n.commandPosition = true → b.levels.length < depth
    | .words => n.commandPosition = false
    | .strayWords => True

/-- The symbol is one of the two that the scan of the limit does not understand here. -/
def Misleads (b : BlockScan) (x : Symbol) : Prop :=
  (b.place = .stage ∧ ∃ w, x = .word w ∧ isConjunction w = true) ∨
    b.place = .strayWords ∧ b.levels.head? = some .conditional ∧ x = .word "else".toList

variable {n : NestingScan} {depth : Nat} {levels : List Level} {x : Symbol}

lemma depthAfter_closing (n : NestingScan) (depth : Nat) (c : Closing) :
    depth - 1 ≤ n.depthAfter depth (.word c.word.toList) ∧
      (c ≠ .blockEnd → n.depthAfter depth (.word c.word.toList) = depth) := by
  rw [NestingScan.depthAfter]
  cases hn : n.commandPosition with
  | false =>
    rw [NestingScan.effect_idle hn]
    exact ⟨Nat.sub_le depth 1, fun _ => rfl⟩
  | true =>
    rw [NestingScan.effect_closing hn]
    cases c <;> simp

lemma agrees_of_starter?_eq_none (hd : levels.length ≤ depth) (hs : x.starter? = none)
    (helse : levels.head? = some .conditional → x = .word "else".toList →
      n.commandPosition = true) :
    Agrees (n.next x) (n.depthAfter depth x) (atCommand levels x) := by
  cases x with
  | word w =>
    obtain ⟨c, hc⟩ := Option.isSome_iff_exists.1 (Symbol.starter?_eq_none.1 hs w rfl)
    obtain ⟨rfl⟩ := Symbol.word.inj (Terminal.closing?_eq_some hc)
    obtain ⟨hle, heq⟩ := depthAfter_closing n depth c
    rw [atCommand_closing hc]
    cases c with
    | blockEnd =>
      cases levels with
      | nil => exact ⟨Nat.zero_le _, trivial⟩
      | cons l outer =>
        refine ⟨?_, ?_⟩
        · simp only [List.length_cons] at hd
          show outer.length ≤ _
          omega
        · show (n.commandPosition && _) = false
          rw [Bool.and_eq_false_iff]
          exact .inr (by decide)
    | elseBranch =>
      rw [heq (by simp)]
      cases levels with
      | nil => exact ⟨hd, trivial⟩
      | cons l outer =>
        cases l with
        | conditional =>
          have hcommand := helse rfl rfl
          refine ⟨hd, ?_, List.cons_ne_nil _ _⟩
          simp [NestingScan.next, hcommand, NestingScan.leadsCommand, Closing.word]
        | choice | plain => exact ⟨hd, trivial⟩
    | nextCase =>
      rw [heq (by simp)]
      cases levels with
      | nil => exact ⟨hd, trivial⟩
      | cons l outer =>
        cases l with
        | choice =>
          refine ⟨hd, ?_⟩
          show (n.commandPosition && _) = false
          rw [Bool.and_eq_false_iff]
          exact .inr (by decide)
        | conditional | plain => exact ⟨hd, trivial⟩
  | garbage => exact ⟨hd, rfl⟩
  | _ => exact ⟨hd, rfl⟩

lemma depthAfter_opener {b : Block} (hn : n.commandPosition = true)
    (hif : b = .ifBlock → n.afterElse = false) :
    n.depthAfter depth (.word b.opener.toList) = depth + 1 := by
  rw [NestingScan.depthAfter, NestingScan.effect_opener hn hif]

lemma next_opener (b : Block) (hn : n.commandPosition = true) :
    n.next (.word b.opener.toList) = ⟨b.place == .command, false⟩ := by
  obtain ⟨commandPosition, afterElse⟩ := n
  obtain rfl : commandPosition = true := hn
  cases b <;> simp [NestingScan.next, NestingScan.leadsCommand, Block.opener, Block.place]

/-- A word that neither opens nor closes anything leaves the count as it is, and a command may
begin behind it only if it is a conjunction. -/
lemma next_plain {w : Text} (hc : Closing.ofWord? w = none) (hb : Block.ofOpener? w = none)
    (n : NestingScan) (depth : Nat) : n.depthAfter depth (.word w) = depth ∧
      n.next (.word w) = ⟨n.commandPosition && isConjunction w, false⟩ := by
  have hclosing : ∀ c : Closing, w ≠ c.word.toList := by
    rintro c rfl
    cases c <;> cases hc
  have hopener : ∀ b : Block, w ≠ b.opener.toList := by
    rintro b rfl
    cases b <;> cases hb
  have helse : (w == "else".toList) = false := beq_false_of_ne (hclosing .elseBranch)
  constructor
  · rw [NestingScan.depthAfter, NestingScan.effect_plain hc hb]
  · have hleads : NestingScan.leadsCommand w = isConjunction w := by
      rw [Bool.eq_iff_iff]
      simp only [NestingScan.leadsCommand, isConjunction, List.any_cons, List.any_nil,
        Bool.or_false, Bool.or_eq_true, beq_iff_eq]
      constructor
      · rintro (h | h | h | h | h | h)
        · exact .inl h.symm
        · exact .inr h.symm
        · exact absurd h.symm (hopener .ifBlock)
        · exact absurd h.symm (hopener .whileLoop)
        · exact absurd h.symm (hopener .beginBlock)
        · exact absurd h.symm (hclosing .elseBranch)
      · rintro (h | h)
        · exact .inl h.symm
        · exact .inr (.inl h.symm)
    simp only [NestingScan.next, hleads, helse, Bool.and_false]

lemma agrees_atCommand (hd : levels.length ≤ depth) (hn : n.commandPosition = true)
    (hif : x = .word "if".toList → n.afterElse = false) :
    Agrees (n.next x) (n.depthAfter depth x) (atCommand levels x) := by
  cases hs : x.starter? with
  | none => exact agrees_of_starter?_eq_none hd hs fun _ _ => hn
  | some w =>
    rw [atCommand_starter hs]
    obtain ⟨rfl, hw⟩ := Symbol.starter?_eq_some.1 hs
    unfold start
    cases hb : Block.ofOpener? w with
    | some b =>
      obtain rfl := Terminal.ofOpener?_eq_some hb
      have hif' : b = .ifBlock → n.afterElse = false := by
        rintro rfl
        exact hif rfl
      rw [depthAfter_opener hn hif', next_opener b hn]
      refine ⟨Nat.succ_le_succ hd, ?_⟩
      cases b <;> rfl
    | none =>
      obtain ⟨hdepth, hnext⟩ := next_plain hw hb n depth
      rw [hdepth, hnext, hn, Bool.true_and]
      simp only
      split
      · rename_i hreturn
        obtain rfl := beq_iff_eq.1 hreturn
        exact ⟨hd, rfl⟩
      · split
        · rename_i hconj
          exact ⟨hd, by rw [hconj]⟩
        · rename_i hconj
          exact ⟨hd, fun h => absurd h hconj⟩

/-- The count goes down at most by one, and not before a place where a command may begin. -/
lemma le_depthAfter (n : NestingScan) (depth : Nat) (x : Symbol) :
    depth ≤ n.depthAfter depth x + 1 ∧
      ((n.next x).commandPosition = true → depth ≤ n.depthAfter depth x) := by
  unfold NestingScan.depthAfter
  cases he : n.effect x with
  | opens => exact ⟨by simp only; omega, fun _ => by simp only; omega⟩
  | same => exact ⟨Nat.le_succ depth, fun _ => le_rfl⟩
  | closes =>
    refine ⟨by simp only; omega, fun h => ?_⟩
    rw [NestingScan.next_of_closes he] at h
    cases h

lemma depthAfter_word (hn : n.commandPosition = false) (w : Text) :
    n.depthAfter depth (.word w) = depth := by
  rw [NestingScan.depthAfter, NestingScan.effect_idle hn]

lemma le_depthAfter_starter {w : Text} (hs : x.starter? = some w) (n : NestingScan) (depth : Nat) :
    depth ≤ n.depthAfter depth x := by
  obtain ⟨rfl, hw⟩ := Symbol.starter?_eq_some.1 hs
  have hend : (w == "end".toList) = false := by
    rw [beq_eq_false_iff_ne]
    rintro rfl
    cases hw
  simp only [NestingScan.depthAfter, NestingScan.effect, NestingScan.wordEffect, hend]
  split
  · omega
  · rename_i h
    split at h
    · cases h
    · simp only [Bool.false_eq_true, if_false] at h
      split at h <;> cases h
  · exact le_rfl

lemma starter?_of_isWord {x : Symbol} (hx : x.isWord = false) :
    x.starter? = none ∧ ∀ w, x ≠ .word w := by
  cases x with
  | word w => cases hx
  | _ => exact ⟨rfl, fun w h => by cases h⟩

/-- Behind a bar only a conjunction misleads: the scan of the limit expects a command behind it,
where the grammar reads arguments. -/
lemma Agrees.step_stage (h : Agrees n depth ⟨.stage, levels⟩)
    (hx : ¬ BlockScan.Misleads ⟨.stage, levels⟩ x) :
    Agrees (n.next x) (n.depthAfter depth x) (BlockScan.step ⟨.stage, levels⟩ x) := by
  obtain ⟨hd, hplace⟩ := h
  obtain rfl : n = ⟨true, false⟩ := hplace
  by_cases hstay : x = .newline ∨ x = .pipe
  · obtain rfl | rfl := hstay <;> exact ⟨hd, rfl⟩
  · have hstep : BlockScan.step ⟨.stage, levels⟩ x =
        if x.starter?.isSome then ⟨.arguments, levels⟩ else atCommand levels x := if_neg hstay
    rw [hstep]
    cases hs : x.starter? with
    | none => exact agrees_atCommand hd rfl fun _ => rfl
    | some w =>
      obtain ⟨rfl, hw⟩ := Symbol.starter?_eq_some.1 hs
      have hconj : isConjunction w = false := by
        by_contra hconj
        exact hx (.inl ⟨rfl, w, rfl, by simpa using hconj⟩)
      cases hb : Block.ofOpener? w with
      | some b =>
        obtain rfl := Terminal.ofOpener?_eq_some hb
        rw [depthAfter_opener rfl fun _ => rfl]
        exact ⟨hd.trans (Nat.le_succ depth), fun _ => Nat.lt_succ_of_le hd⟩
      | none =>
        obtain ⟨hdepth, hnext⟩ := next_plain hw hb ⟨true, false⟩ depth
        rw [hdepth, hnext, hconj]
        exact ⟨hd, fun h => by cases h⟩

/-- Among arguments no symbol misleads: where the scan of the limit expects a command it counts a
block too many already. -/
lemma Agrees.step_arguments (h : Agrees n depth ⟨.arguments, levels⟩) :
    Agrees (n.next x) (n.depthAfter depth x) (BlockScan.step ⟨.arguments, levels⟩ x) := by
  obtain ⟨hd, hplace⟩ := h
  cases hword : x.isWord with
  | true =>
    obtain ⟨w, rfl⟩ := Symbol.exists_of_isWord hword
    show levels.length ≤ _ ∧ (_ → levels.length < _)
    cases hn : n.commandPosition with
    | false =>
      rw [depthAfter_word hn]
      exact ⟨hd, fun h => by simp [NestingScan.next, hn] at h⟩
    | true =>
      have hlt : levels.length < depth := hplace hn
      obtain ⟨hle, hle'⟩ := le_depthAfter n depth (.word w)
      exact ⟨by omega, fun h => hlt.trans_le (hle' h)⟩
  | false =>
    obtain ⟨hs, hne⟩ := starter?_of_isWord hword
    by_cases hpipe : x = .pipe
    · subst hpipe
      exact ⟨hd, rfl⟩
    · have hstep : BlockScan.step ⟨.arguments, levels⟩ x = atCommand levels x := by
        simp only [BlockScan.step, hword, if_neg hpipe, Bool.false_eq_true, if_false]
      rw [hstep]
      exact agrees_of_starter?_eq_none hd hs fun _ h => absurd h (hne _)

/-- Unless a symbol misleads the scan of the limit, the two scans go on in agreement. -/
theorem Agrees.step {b : BlockScan} (h : Agrees n depth b) (hx : ¬ b.Misleads x) :
    Agrees (n.next x) (n.depthAfter depth x) (b.step x) := by
  obtain ⟨place, levels⟩ := b
  cases place with
  | command =>
    obtain ⟨hd, hplace⟩ := h
    obtain rfl : n = ⟨true, false⟩ := hplace
    exact agrees_atCommand hd rfl fun _ => rfl
  | afterElse =>
    obtain ⟨hd, rfl, hne⟩ : _ ∧ n = ⟨true, true⟩ ∧ levels ≠ [] := h
    by_cases hif : x = .word "if".toList
    · subst hif
      exact ⟨hd, rfl⟩
    · have hlength : (Level.plain :: levels.tail).length ≤ depth := by
        obtain ⟨l, ls, rfl⟩ := List.exists_cons_of_ne_nil hne
        exact hd
      have hagrees := agrees_atCommand (n := ⟨true, true⟩) hlength rfl fun h => absurd h hif
      have hstep : BlockScan.step ⟨.afterElse, levels⟩ x = atCommand (.plain :: levels.tail) x :=
        if_neg hif
      rw [hstep]
      exact hagrees
  | stage => exact h.step_stage hx
  | arguments => exact h.step_arguments
  | words =>
    obtain ⟨hd, hplace⟩ := h
    cases hword : x.isWord with
    | true =>
      obtain ⟨w, rfl⟩ := Symbol.exists_of_isWord hword
      have hn : n.commandPosition = false := hplace
      rw [depthAfter_word hn]
      exact ⟨hd, by simp [BlockScan.step, Symbol.isWord, NestingScan.next, hn]⟩
    | false =>
      obtain ⟨hs, hne⟩ := starter?_of_isWord hword
      have hstep : BlockScan.step ⟨.words, levels⟩ x = atCommand levels x := by
        simp only [BlockScan.step, hword, Bool.false_eq_true, if_false]
      rw [hstep]
      exact agrees_of_starter?_eq_none hd hs fun _ h => absurd h (hne _)
  | strayWords =>
    obtain ⟨hd, -⟩ := h
    have hstep : BlockScan.step ⟨.strayWords, levels⟩ x =
        if x.starter?.isSome then ⟨.strayWords, levels⟩ else atCommand levels x := rfl
    rw [hstep]
    cases hs : x.starter? with
    | some w => exact ⟨hd.trans (le_depthAfter_starter hs n depth), trivial⟩
    | none =>
      exact agrees_of_starter?_eq_none hd hs fun hhead helse => absurd (.inr ⟨rfl, hhead, helse⟩) hx

/-! ## What a scan tells about the terminals before -/

lemma start_place (levels : List Level) (w : Text) :
    (start levels w).place = .words ∨ (start levels w).place = .command ∨
      (start levels w).place = .arguments := by
  unfold start
  cases Block.ofOpener? w with
  | some b => cases b <;> simp [Block.place]
  | none =>
    simp only
    split
    · exact .inl rfl
    · split
      · exact .inr (.inl rfl)
      · exact .inr (.inr rfl)

lemma close_place_ne_stage (levels : List Level) (c : Closing) :
    (close levels c).place ≠ .stage := by
  unfold close
  split <;> simp

lemma atCommand_place_ne_stage (levels : List Level) (x : Symbol) :
    (atCommand levels x).place ≠ .stage := by
  cases hs : x.starter? with
  | some w =>
    rw [atCommand_starter hs]
    obtain h | h | h := start_place levels w <;> simp [h]
  | none =>
    cases x with
    | word w =>
      obtain ⟨c, hc⟩ := Option.isSome_iff_exists.1 (Symbol.starter?_eq_none.1 hs w rfl)
      rw [atCommand_closing hc]
      exact close_place_ne_stage levels c
    | _ => simp [atCommand]

lemma atCommand_strayWords (h : (atCommand levels x).place = .strayWords)
    (hhead : (atCommand levels x).levels.head? = some .conditional) :
    x = .word "case".toList := by
  cases hs : x.starter? with
  | some w =>
    rw [atCommand_starter hs] at h
    obtain h' | h' | h' := start_place levels w <;> rw [h'] at h <;> cases h
  | none =>
    cases x with
    | word w =>
      obtain ⟨c, hc⟩ := Option.isSome_iff_exists.1 (Symbol.starter?_eq_none.1 hs w rfl)
      rw [atCommand_closing hc] at h hhead
      rw [Terminal.closing?_eq_some hc]
      cases c with
      | nextCase => rfl
      | blockEnd =>
        cases levels with
        | nil => cases hhead
        | cons l outer => cases h
      | elseBranch =>
        cases levels with
        | nil => cases hhead
        | cons l outer =>
          cases l with
          | conditional => cases h
          | choice | plain => cases hhead
    | _ => cases h

/-- What a step can be: as where a command may begin, none at all, or a change of place. -/
lemma step_cases (b : BlockScan) (x : Symbol) :
    (∃ levels, b.step x = atCommand levels x) ∨
      (b.step x = b ∧ (b.place ≠ .stage ∧ x.isWord = true ∨
        b.place = .stage ∧ (x = .pipe ∨ x = .newline))) ∨
      (b.step x = ⟨.stage, b.levels⟩ ∧ x = .pipe) ∨
      b.step x = ⟨.command, b.levels⟩ ∨ b.step x = ⟨.arguments, b.levels⟩ := by
  obtain ⟨place, levels⟩ := b
  unfold BlockScan.step
  cases place with
  | command => exact .inl ⟨levels, rfl⟩
  | afterElse =>
    simp only
    split
    · exact .inr (.inr (.inr (.inl rfl)))
    · exact .inl ⟨_, rfl⟩
  | stage =>
    simp only
    split
    · rename_i hx
      exact .inr (.inl ⟨rfl, .inr ⟨trivial, hx.symm⟩⟩)
    · split
      · exact .inr (.inr (.inr (.inr rfl)))
      · exact .inl ⟨_, rfl⟩
  | arguments =>
    simp only
    split
    · rename_i hx
      exact .inr (.inl ⟨rfl, .inl ⟨by simp, hx⟩⟩)
    · split
      · rename_i hx
        exact .inr (.inr (.inl ⟨rfl, hx⟩))
      · exact .inl ⟨_, rfl⟩
  | words =>
    simp only
    split
    · rename_i hx
      exact .inr (.inl ⟨rfl, .inl ⟨by simp, hx⟩⟩)
    · exact .inl ⟨_, rfl⟩
  | strayWords =>
    simp only
    split
    · rename_i hx
      obtain ⟨w, hw⟩ := Option.isSome_iff_exists.1 hx
      rw [(Symbol.starter?_eq_some.1 hw).1]
      exact .inr (.inl ⟨rfl, .inl ⟨by simp, rfl⟩⟩)
    · exact .inl ⟨_, rfl⟩

lemma step_stage {b : BlockScan} (h : (b.step x).place = .stage) :
    x = .pipe ∨ b.place = .stage ∧ x = .newline := by
  obtain ⟨levels, heq⟩ | ⟨heq, ⟨hplace, -⟩ | ⟨hplace, hx⟩⟩ | ⟨-, hx⟩ | heq | heq := step_cases b x
  · rw [heq] at h
    exact absurd h (atCommand_place_ne_stage levels x)
  · rw [heq] at h
    exact absurd h hplace
  · exact hx.imp_right fun hx => ⟨hplace, hx⟩
  · exact .inl hx
  · rw [heq] at h
    cases h
  · rw [heq] at h
    cases h

lemma step_strayWords {b : BlockScan} (h : (b.step x).place = .strayWords)
    (hhead : (b.step x).levels.head? = some .conditional) :
    x = .word "case".toList ∨
      b.place = .strayWords ∧ b.levels.head? = some .conditional ∧ x.isWord = true := by
  obtain ⟨levels, heq⟩ | ⟨heq, ⟨-, hx⟩ | ⟨hplace, -⟩⟩ | ⟨heq, -⟩ | heq | heq := step_cases b x
  · rw [heq] at h hhead
    exact .inl (atCommand_strayWords h hhead)
  · rw [heq] at h hhead
    exact .inr ⟨h, hhead, hx⟩
  · rw [heq, hplace] at h
    cases h
  · rw [heq] at h
    cases h
  · rw [heq] at h
    cases h
  · rw [heq] at h
    cases h

lemma run_append_singleton (ts : List Terminal) (t : Terminal) :
    run (ts ++ [t]) = (run ts).step t.symbol := by
  rw [run, run, List.foldl_append]
  rfl

/-- Before a stage of a pipeline stands a bar, with nothing but line breaks and bars behind it. -/
lemma run_stage {ts : List Terminal} (h : (run ts).place = .stage) :
    ∃ (before : List Terminal) (bar : Terminal) (gap : List Terminal),
      ts = before ++ bar :: gap ∧ bar.symbol = .pipe ∧
      ∀ t ∈ gap, t.symbol = .newline := by
  induction ts using List.reverseRecOn with
  | nil => cases h
  | append_singleton ts t ih =>
    rw [run_append_singleton] at h
    obtain hx | ⟨hplace, hx⟩ := step_stage h
    · exact ⟨ts, t, [], rfl, hx, by simp⟩
    · obtain ⟨before, bar, gap, rfl, hbar, hgap⟩ := ih hplace
      exact ⟨before, bar, gap ++ [t], by simp, hbar, forall_mem_concat hgap hx⟩

/-- Before stray words in a conditional stands the word `case`, with nothing but words behind
it. -/
lemma run_strayWords {ts : List Terminal} (h : (run ts).place = .strayWords)
    (hhead : (run ts).levels.head? = some .conditional) :
    ∃ (before : List Terminal) (first : Terminal) (words : List Terminal),
      ts = before ++ first :: words ∧ first.symbol = .word "case".toList ∧
      ∀ t ∈ words, t.symbol.isWord = true := by
  induction ts using List.reverseRecOn with
  | nil => cases h
  | append_singleton ts t ih =>
    rw [run_append_singleton] at h hhead
    obtain hx | ⟨hplace, hhead, hx⟩ := step_strayWords h hhead
    · exact ⟨ts, t, [], rfl, hx, by simp⟩
    · obtain ⟨before, first, words, rfl, hfirst, hwords⟩ := ih hplace hhead
      exact ⟨before, first, words ++ [t], by simp, hfirst, forall_mem_concat hwords hx⟩

end BlockScan

/-! ## Sources within the limit -/

/-- Behind a bar, with nothing but line breaks between, stands `and` or `or`. -/
def JoinsBehindBar (ts : List Terminal) : Prop :=
  ∃ (before : List Terminal) (bar : Terminal) (gap : List Terminal) (t : Terminal)
    (after : List Terminal), ts = before ++ bar :: gap ++ t :: after ∧ bar.symbol = .pipe ∧
    (∀ u ∈ gap, u.symbol = .newline) ∧ ∃ w, t.symbol = .word w ∧ isConjunction w = true

/-- Behind the word `case`, with nothing but words between, stands the word `else`. -/
def ElseBehindCase (ts : List Terminal) : Prop :=
  ∃ (before : List Terminal) (first : Terminal) (words : List Terminal) (t : Terminal)
    (after : List Terminal), ts = before ++ first :: words ++ t :: after ∧
    first.symbol = .word "case".toList ∧ (∀ u ∈ words, u.symbol.isWord = true) ∧
    t.symbol = .word "else".toList

namespace NestingScan

/-- What the scan knows after some terminals. -/
def run (ts : List Terminal) : NestingScan := ts.foldl (fun n t => n.next t.symbol) initial

lemma count_append_singleton (n : NestingScan) (depth : Nat) (ts : List Terminal) (t : Terminal) :
    n.count depth (ts ++ [t]) =
      (ts.foldl (fun n t => n.next t.symbol) n).depthAfter (n.count depth ts) t.symbol := by
  induction ts generalizing n depth with
  | nil => rfl
  | cons u ts ih => exact ih _ _

end NestingScan

/-- Without misleading words the scan of the limit knows of every block. -/
lemma agrees_run {ts : List Terminal} (hbar : ¬ JoinsBehindBar ts) (hcase : ¬ ElseBehindCase ts) :
    ∀ us, us <+: ts →
      BlockScan.Agrees (.run us) (NestingScan.initial.count 0 us) (.run us) := by
  intro us
  induction us using List.reverseRecOn with
  | nil => exact fun _ => ⟨le_rfl, rfl⟩
  | append_singleton us t ih =>
    rintro ⟨after, rfl⟩
    have hagrees := ih ⟨t :: after, by simp⟩
    have hunderstood : ¬ (BlockScan.run us).Misleads t.symbol := by
      rintro (⟨hplace, w, hw, hconj⟩ | ⟨hplace, hhead, hw⟩)
      · obtain ⟨before, bar, gap, rfl, hb, hgap⟩ := BlockScan.run_stage hplace
        exact hbar ⟨before, bar, gap, t, after, by simp, hb, hgap, w, hw, hconj⟩
      · obtain ⟨before, first, words, rfl, hfirst, hwords⟩ :=
          BlockScan.run_strayWords hplace hhead
        exact hcase ⟨before, first, words, t, after, by simp, hfirst, hwords, hw⟩
    have hstep := hagrees.step hunderstood
    rw [BlockScan.run_append_singleton, NestingScan.count_append_singleton, NestingScan.run,
      List.foldl_append]
    exact hstep

/-- A tree is as deep as the limit allows at most if behind no bar, line breaks apart, the word
`and` or `or` stands, and behind no `case` the word `else` on the same line. -/
lemma depth_rootOf_le {source : Text} (hbar : ¬ JoinsBehindBar (limited source))
    (hcase : ¬ ElseBehindCase (limited source)) : (rootOf source).depth source ≤ maxNesting := by
  rw [depth_rootOf_le_iff]
  intro us hus
  exact (agrees_run hbar hcase us hus).1.trans
    (NestingScan.count_limitFrom_le (Nat.zero_le _) (fun _ => rfl) (by simp) us hus)

/-- The nesting limit bounds the tree of a source if and only if the blocks that are open for the
grammar never are more than the limit allows. They never are if behind no bar, line breaks apart,
the word `and` or `or` stands, and behind no `case` the word `else` on the same line. -/
theorem parse_depth_le_iff (source : Text) :
    ∃ root, parse source = .ok ⟨source, [root]⟩ ∧
      ((∀ path, root.Lineage path → path.countP (·.isConstruct source) ≤ maxNesting) ↔
        ∀ ts, ts <+: limitNesting (terminals source) →
          (BlockScan.run ts).levels.length ≤ maxNesting) ∧
      (¬ JoinsBehindBar (limitNesting (terminals source)) →
        ¬ ElseBehindCase (limitNesting (terminals source)) →
        ∀ path, root.Lineage path → path.countP (·.isConstruct source) ≤ maxNesting) := by
  refine ⟨rootOf source, parse_eq source, ?_, fun hbar hcase => ?_⟩
  · rw [← Node.depth_le_iff]
    exact depth_rootOf_le_iff source maxNesting
  · exact Node.depth_le_iff.1 (depth_rootOf_le hbar hcase)

/-- A pipeline and more open blocks than the limit allows. -/
def foldedBlocks : Text := "a | b\n".toList ++ (List.replicate 40 "begin\n".toList).flatten

/-- No node of its tree stands in more blocks than the limit allows. -/
theorem parse_depth_le_iff_foldedBlocks :
    ∃ root, parse foldedBlocks = .ok ⟨foldedBlocks, [root]⟩ ∧
      ∀ path, root.Lineage path → path.countP (·.isConstruct foldedBlocks) ≤ maxNesting := by
  obtain ⟨root, hparse, -, hwithin⟩ := parse_depth_le_iff foldedBlocks
  have hwords : ∀ t ∈ limitNesting (terminals foldedBlocks),
      t.symbol ∉ ["and", "or", "case"].map (Symbol.word ·.toList) := by
    decide +kernel
  refine ⟨root, hparse, hwithin ?_ ?_⟩
  · rintro ⟨before, bar, gap, t, after, heq, -, -, w, hw, hconj⟩
    refine hwords t (by simp [heq]) ?_
    obtain rfl | rfl : w = "and".toList ∨ w = "or".toList := by simpa [isConjunction] using hconj
    all_goals simp [hw]
  · rintro ⟨before, first, words, t, after, heq, hfirst, -⟩
    exact hwords first (by simp [heq]) (by simp [hfirst])

/-- Thirty-two open blocks, a line whose last word looks like the end of the innermost and is
none, and one more block. -/
def unnoticedBlock : Text :=
  (List.replicate 32 "begin\n".toList).flatten ++ "a | and end\nbegin\n".toList

/-- Not every source stays within the limit. -/
theorem exists_lineage_beyond_limit :
    ∃ root path, parse unnoticedBlock = .ok ⟨unnoticedBlock, [root]⟩ ∧ root.Lineage path ∧
      maxNesting < path.countP (·.isConstruct unnoticedBlock) := by
  obtain ⟨path, hpath, hcount⟩ := (rootOf unnoticedBlock).exists_lineage unnoticedBlock
  refine ⟨rootOf unnoticedBlock, path, parse_eq unnoticedBlock, hpath, ?_⟩
  rw [hcount, ← not_le, depth_rootOf_le_iff]
  intro h
  have hlevels : (BlockScan.run (limited unnoticedBlock)).levels.length = 33 := by decide +kernel
  have hbound := h (limited unnoticedBlock) List.prefix_rfl
  rw [hlevels] at hbound
  exact absurd hbound (by decide)

end FishScript
