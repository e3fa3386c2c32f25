/-
# Lines that close blocks

A line break ends whatever could take an `end` as one of its words. So an `end` on a line of its
own closes the innermost block that is open, and if there is none it is a stray one; all else that
is wrong stays wrong (`Stack.Steady.blockEnd`). Hence some such lines close as many blocks as they
are, the innermost first, and only those left over are reported (`Stack.Steady.endLines`).
-/
import Mathlib
import FishScript.Proofs.Grammar.OpenBlocks

namespace FishScript

/-! ## Where no word is expected -/

namespace Expect

/-- No word is a leaf of the node as it is, except one that closes it. -/
def isWordless : Expect → Bool
  | .statements _ _ | .conditionRest _ | .joined | .stage | .bar | .nothing => true
  | _ => false

lemma Awaits.isWordless {source : Text} {kind : NodeKind} {ps : List Part} {field : Option Field}
    {clauseOf? : Option Block} {e : Expect} (h : e.Awaits source kind ps field clauseOf?) :
    e.isWordless = true := by
  cases clauseOf? with
  | some b => rw [h.1]; rfl
  | none =>
    cases e with
    | statements | conditionRest | nothing | bar => rfl
    | _ => exact h.elim

end Expect

namespace Frame

variable {source : Text} {gs : List Span} {c : Code} {f : Frame} {t : Terminal} {m : Move}

lemma faults_take (h : f.phrases ≠ [] ∨ f.kind ≠ .error) {kind : NodeKind}
    (hleaf : kind ∈ t.symbol.leafKinds) (field : Option Field) (expect : Expect) :
    (f.take kind field t expect).frame.faults source c = f.faults source c := by
  show (f.add (.leaf kind field t.span)).faults source c = _
  rw [faults_add h, faults_leaf hleaf, Nat.add_zero]

/-- The end of a statement becomes a leaf, and no word is expected behind it. Behind a separator
the next statement is. -/
lemma Rule.terminated (hm : f.Rule t m) (hs : t.symbol = .separator ∨ t.symbol = .newline) :
    ∃ e : Expect, e.isWordless = true ∧ (t.symbol = .separator → ∃ h, e = .statements h false) ∧
      m = f.take .terminator none t e := by
  cases hm with
  | terminator => exact ⟨_, rfl, fun _ => ⟨_, rfl⟩, rfl⟩
  | lineBreak _ hs' | stageBreak _ hs' => exact ⟨_, rfl, fun h => by simp [hs'] at h, rfl⟩
  | comment _ hs' | garble _ hs' | functionName _ hs' | functionOption _ hs' | loopName _ hs'
  | loopIn _ hs' | loopItem _ hs' | headerWord _ hs' | elseIf _ hs' | finalWord _ hs'
  | argument _ hs' | pipe _ hs' | lineComment _ hs' | bar _ hs' =>
    rw [hs'] at hs
    simp at hs
  | dangle _ hs' | join _ hs' | begin _ hs' | close _ hs' | clause _ hs' | stray _ hs'
  | condition _ hs' | conditionJoin _ hs' | strayWord _ hs' | conjunction _ hs' | conjoined _ hs'
  | connector _ hs' | connected _ hs' | garbage _ hs' | joined _ hs' | staged _ hs' =>
    obtain hs | hs := hs <;> rw [hs] at hs' <;>
      simp [Symbol.isConnector, Symbol.starter?, Symbol.closing?] at hs'

/-- Where no word is expected, an `end` closes a block or is a stray one of the program. -/
lemma Rule.blockEnd (hm : f.Rule t m) (hs : t.symbol.closing? = some .blockEnd)
    (he : f.expect.isWordless = true) :
    (∃ (b : Block) (j : Bool), f.Lists t (.block b) j ∧
      m = { f with kind := b.kind }.take .keyword none t .finalWords) ∨
    ∃ j, f.Lists t .program j ∧ m = f.enter (.statements .program false) (Frame.stray t) := by
  have hword := Terminal.closing?_eq_some hs
  have hstarter : t.symbol.starter? = none := by
    rw [hword]
    rfl
  cases hm with
  | @close h j c b hl hs' hrole =>
    obtain ⟨rfl, rfl⟩ := Holder.role_eq_closes hrole
    exact .inl ⟨b, j, hl, rfl⟩
  | @clause h j c hl hs' hrole =>
    rw [hs, Option.some_inj] at hs'
    obtain ⟨b, rfl⟩ := Holder.role_eq_beginsClause hrole
    rw [← hs'] at hrole
    cases hrole
  | @stray h j c hl hs' hrole =>
    rw [hs, Option.some_inj] at hs'
    rw [← hs'] at hrole
    cases h with
    | program => exact .inr ⟨j, hl, rfl⟩
    | block b => cases b <;> cases hrole
    | _ => cases hrole
  | comment _ hs' | garble _ hs' | pipe _ hs' | lineBreak _ hs' | lineComment _ hs'
  | stageBreak _ hs' | bar _ hs' =>
    rw [hword] at hs'
    cases hs'
  | begin _ hs' | condition _ hs' | strayWord _ hs' | conjunction _ hs' | conjoined _ hs'
  | connected _ hs' | joined _ hs' | staged _ hs' =>
    rw [hstarter] at hs'
    cases hs'
  | terminator _ hs' | join _ hs' | dangle _ hs' | conditionJoin _ hs' | connector _ hs' =>
    rw [hword] at hs'
    simp [Symbol.isConnector] at hs'
  | functionName he' | functionOption he' | loopName he' | loopIn he' | loopItem he'
  | headerWord he' | elseIf he' | finalWord he' | argument he' | garbage he' =>
    rw [he'] at he
    cases he

end Frame

/-! ## One line -/

namespace Stack

variable {source : Text} {gs : List Span} {c : Code} {t : Terminal} {s : Stack}

/-- The faults of all open nodes. -/
def total (source : Text) (c : Code) (s : Stack) : Nat := faults source c (s.top :: s.below)

lemma faults_eq_zero_of_mem {fs : List Frame} (h : faults source c fs = 0) :
    ∀ f ∈ fs, f.faults source c = 0 := by
  induction fs with
  | nil => exact List.forall_mem_nil _
  | cons f fs ih =>
    rw [faults, Nat.add_eq_zero_iff] at h
    exact List.forall_mem_cons.2 ⟨h.1, ih h.2⟩

/-- What is known while an `end` looks for its block: the faults are those before, and no word is
expected. -/
structure Seeking (source : Text) (s : Stack) (top : Frame) (below : List Frame) : Prop where
  faults : ∀ c, faults source c (top :: below) = s.total source c
  closed : Sealed source (top :: below)
  wordless : top.expect.isWordless = true

lemma Steady.newline (h : s.Steady source gs) (hs : t.symbol = .newline) :
    (∀ c, (s.step t).total source c = s.total source c) ∧
      (s.step t).top.expect.isWordless = true := by
  refine h.step_induction
    (P := fun top below => ∀ c, faults source c (top :: below) = s.total source c)
    (Q := fun s' => (∀ c, s'.total source c = s.total source c) ∧
      s'.top.expect.isWordless = true)
    (fun _ => rfl) (fun hoffered _ hfaults c => ?_) ?_
  · rw [faults_pop hoffered.filled, hfaults]
  · intro top below m hoffered hm hfaults
    obtain ⟨e, he, -, rfl⟩ := hm.terminated (.inr hs)
    refine ⟨fun c => ?_, he⟩
    have hleaf : NodeKind.terminator ∈ t.symbol.leafKinds := by simp [hs, Symbol.leafKinds]
    show (top.take .terminator none t e).frame.faults source c + faults source c below = _
    rw [Frame.faults_take (FilledUpTo.phrases_or_kind hoffered.filled) hleaf, ← hfaults c, faults]

lemma faults_block {top : Frame} (hr : top.Ready source gs t) {b : Block} {j : Bool}
    (hl : top.Lists t (.block b) j) : top.faults source c =
      (if c = .missingEnd then 1 else 0) + faultsOf source c top.phrases := by
  obtain ⟨clauses, hfits, -⟩ := hr
  obtain ⟨hkind, hopened⟩ := Expect.Fits.keeps hfits (Expect.holder?_of_listed? hl)
  have hfits : ErrorShape.unclosed.Fits source gs top.parts := ⟨b, clauses, hopened⟩
  have hfault : FishScript.fault? source top.kind top.parts = some .missingEnd := by
    rw [hkind]
    exact fault?_of_error hfits
  rw [Frame.faults, faultCount, hfault]
  simp only [Option.some_inj, eq_comm]

lemma faults_closed {top : Frame} (hr : top.Ready source gs t) {b : Block} {j : Bool}
    (hl : top.Lists t (.block b) j) (hleaf : NodeKind.keyword ∈ t.symbol.leafKinds) :
    ({ top with kind := b.kind }.take .keyword none t .finalWords).frame.faults source c +
      (if c = .missingEnd then 1 else 0) = top.faults source c := by
  have hkind : b.kind ≠ .error := by cases b <;> simp [Block.kind]
  have hown : ({ top with kind := b.kind }.take .keyword none t .finalWords).frame.faults source c =
      faultsOf source c top.phrases := by
    show faultCount source c b.kind _ +
      (Phrase.faults source c _ + faultsOf source c top.phrases) = _
    rw [faultCount_of_kind hkind, faults_leaf hleaf, Nat.zero_add, Nat.zero_add]
  rw [hown, faults_block hr hl, Nat.add_comm]

lemma faults_stray (ht : t.Reads source) (hs : t.symbol.closing? = some .blockEnd) :
    (Frame.stray t).faults source c = if c = .extraEnd then 1 else 0 := by
  have hkeyword : ∀ w, (Phrase.leaf .keyword none t.span).part.isKeyword source w =
      ("end".toList == w) := fun w => by
    have htext := ht _ (Terminal.closing?_eq_some hs)
    simp only [Part.isKeyword, Phrase.part, beq_self_eq_true, Bool.true_and, Option.bind_some,
      htext]
    rfl
  have hend : (Phrase.leaf .keyword none t.span).part.isEnd source = true := hkeyword _
  have hconstruct :
      isConstruct source .error [(Phrase.leaf .keyword none t.span).part] = false := by
    rw [isConstruct, List.any_eq_false]
    intro b _
    rw [List.head?_cons, Option.any_some, hkeyword]
    cases b <;> decide
  have hfault : FishScript.fault? source .error [(Phrase.leaf .keyword none t.span).part] =
      some .extraEnd := by
    rw [FishScript.fault?, if_neg (by simp), hconstruct, if_neg (by simp), List.head?_cons,
      Option.any_some, hend, if_pos rfl]
  show faultCount source c .error [_] + (Phrase.faults source c _ + 0) = _
  rw [faults_leaf (Frame.keyword_mem_of_closing hs), faultCount, hfault]
  simp only [Option.some_inj, eq_comm, Nat.add_zero]

/-- An `end` where no word is expected closes a block that lacks one, or there is none and it is
a fault itself. -/
theorem Steady.blockEnd (h : s.Steady source gs) (hclosed : Sealed source (s.top :: s.below))
    (hw : s.top.expect.isWordless = true) (ht : t.Reads source)
    (hs : t.symbol.closing? = some .blockEnd) :
    (∀ c, (s.step t).total source c + (if c = .missingEnd then 1 else 0) = s.total source c) ∨
    s.total source .missingEnd = 0 ∧
      ∀ c, (s.step t).total source c = s.total source c + if c = .extraEnd then 1 else 0 := by
  refine h.step_induction (P := Seeking source s)
    (Q := fun s' =>
      (∀ c, s'.total source c + (if c = .missingEnd then 1 else 0) = s.total source c) ∨
      s.total source .missingEnd = 0 ∧
        ∀ c, s'.total source c = s.total source c + if c = .extraEnd then 1 else 0)
    ⟨fun _ => rfl, hclosed, hw⟩ (fun hoffered hn hseeking => ⟨fun c => ?_, ?_, ?_⟩) ?_
  · rw [faults_pop hoffered.filled, hseeking.faults]
  · exact hseeking.closed.pop hoffered.ready hn
  · exact Expect.Awaits.isWordless hoffered.chained.2.1
  · intro top below m hoffered hm hseeking
    obtain ⟨b, j, hl, rfl⟩ | ⟨j, hl, rfl⟩ := hm.blockEnd hs hseeking.wordless
    · -- the innermost open node is a block, and is closed
      refine .inl fun c => ?_
      have hown := faults_closed (c := c) hoffered.ready hl (Frame.keyword_mem_of_closing hs)
      show ({ top with kind := b.kind }.take .keyword none t .finalWords).frame.faults source c +
        faults source c below + _ = _
      rw [Nat.add_right_comm, hown, ← hseeking.faults c, faults]
    · -- only the outermost node is the program, and what it holds is complete
      have hkind : top.kind = .program := by
        obtain ⟨clauses, hfits, -⟩ := hoffered.ready
        exact (Expect.Fits.keeps hfits (Expect.holder?_of_listed? hl)).1
      have hbelow : below = [] := by
        cases below with
        | nil => rfl
        | cons next below => exact absurd (Expect.holder?_of_listed? hl) hoffered.nested.1
      have htop : ∀ c, top.faults source c = faultsOf source c top.phrases := fun c => by
        rw [Frame.faults, faultCount_of_kind (by simp [hkind]), Nat.zero_add]
      subst hbelow
      refine .inr ⟨?_, fun c => ?_⟩
      · rw [← hseeking.faults, faults, htop, (List.forall_mem_cons.1 hseeking.closed).1, faults]
      · rw [← hseeking.faults c, ← faults_stray ht hs, Nat.add_comm]
        rfl

end Stack

/-! ## Some lines -/

/-- What the grammar sees in some lines that hold an `end` each. -/
def endLines (m : Nat) : List Symbol :=
  (List.replicate m [.newline, .word "end".toList]).flatten

namespace Stack

variable {source : Text} {gs : List Span}

/-- Lines with an `end` close the blocks that lack one, the innermost first, and are reported when
none is left. -/
theorem Steady.endLines {m : Nat} {ts : List Terminal} {s : Stack} (h : s.Steady source gs)
    (hclosed : Sealed source (s.top :: s.below)) (hts : ts.map Terminal.symbol = endLines m)
    (hreads : ∀ t ∈ ts, t.Reads source) :
    (ts.foldl Stack.step s).total source .missingEnd = s.total source .missingEnd - m ∧
    (ts.foldl Stack.step s).total source .extraEnd =
      s.total source .extraEnd + (m - s.total source .missingEnd) ∧
    (ts.foldl Stack.step s).total source .syntaxError = s.total source .syntaxError := by
  induction m generalizing s ts with
  | zero =>
    obtain rfl := List.map_eq_nil_iff.1 hts
    rw [Nat.zero_sub]
    exact ⟨rfl, rfl, rfl⟩
  | succ m ih =>
    obtain ⟨line, ts, rfl, hline, hts⟩ := List.map_eq_cons_iff.1 hts
    obtain ⟨close, ts, rfl, hclose, hts⟩ := List.map_eq_cons_iff.1 hts
    obtain ⟨hreadLine, hreads⟩ := List.forall_mem_cons.1 hreads
    obtain ⟨hreadClose, hreads⟩ := List.forall_mem_cons.1 hreads
    have hbroken : (s.step line).Steady source gs :=
      h.step hreadLine fun hg => by simp [hline] at hg
    have hended : ((s.step line).step close).Steady source gs :=
      hbroken.step hreadClose fun hg => by simp [hclose] at hg
    have hclosed' := hclosed.step h (t := line)
    have hclosed'' := hclosed'.step hbroken (t := close)
    have hend : close.symbol.closing? = some .blockEnd := by
      rw [hclose]
      rfl
    obtain ⟨hkept, hwordless⟩ := h.newline hline
    have hstep := hbroken.blockEnd hclosed' hwordless hreadClose hend
    simp only [hkept] at hstep
    rw [List.foldl_cons, List.foldl_cons]
    obtain ⟨hmissing, hextra, hwrong⟩ := ih hended hclosed'' hts hreads
    rw [hmissing, hextra, hwrong]
    -- this line closes a block, or there is none to close and all further lines are reported
    obtain hcloses | ⟨hnone, hstrays⟩ := hstep
    · have hm := hcloses .missingEnd
      have he := hcloses .extraEnd
      have hw := hcloses .syntaxError
      simp only [if_true, reduceCtorEq, if_false, Nat.add_zero] at hm he hw
      omega
    · have hm := hstrays .missingEnd
      have he := hstrays .extraEnd
      have hw := hstrays .syntaxError
      simp only [if_true, reduceCtorEq, if_false, Nat.add_zero] at hm he hw
      omega

end Stack

end FishScript
