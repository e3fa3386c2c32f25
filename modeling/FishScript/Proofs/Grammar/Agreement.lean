/-
# Where the scan of the nesting limit is exact

The scan of the nesting limit knows only whether a command may begin, and so loses its way behind
bars and behind closing words that close nothing. In source without bars that parses without an
error it never does: what it knows is then exactly what the place of the grammar tells
(`BlockScan.Tracks.step`), and its answers are what the leaves of the phrase do to the number of
open blocks (`brackets_parseTerminals`).

That the source parses without an error is known only at its end. But a closing word that strays is
an error whatever follows, so there is none at any time before (`Stack.Steady.total_le_step`).
-/
import Mathlib
import FishScript.Proofs.Grammar.Brackets
import FishScript.Proofs.Grammar.Closing
import FishScript.Proofs.Grammar.Limit

namespace FishScript

/-! ## One step of both scans -/

namespace Place

/-- What the scan of the nesting limit knows where it is right. Behind a bar and behind a closing
word that closes nothing it may be wrong. -/
def nesting? : Place → Option NestingScan
  | .command => some ⟨true, false⟩
  | .afterElse => some ⟨true, true⟩
  | .arguments | .words => some ⟨false, false⟩
  | .stage | .strayWords => none

end Place

namespace NestingScan

variable {n : NestingScan}

lemma next_closing (hn : n.commandPosition = true) (c : Closing) :
    n.next (.word c.word.toList) = ⟨c == .elseBranch, c == .elseBranch⟩ := by
  obtain ⟨commandPosition, afterElse⟩ := n
  obtain rfl : commandPosition = true := hn
  cases c <;> simp [next, leadsCommand, Closing.word]

lemma depthAfter_of_leads {x : Symbol} {d d' : Nat} (h : (n.effect x).Leads d d') :
    n.depthAfter d x = d' := by
  rw [depthAfter]
  cases he : n.effect x with
  | opens =>
    rw [he] at h
    exact h.symm
  | closes =>
    rw [he] at h
    exact Nat.sub_eq_of_eq_add h
  | same =>
    rw [he] at h
    exact h

end NestingScan

namespace BlockScan

/-- The scan of the nesting limit knows where the next terminal stands. -/
structure Tracks (n : NestingScan) (b : BlockScan) : Prop where
  state : b.place.nesting? = some n
  clause : b.place = .afterElse → b.levels ≠ []

variable {n : NestingScan} {b : BlockScan} {levels : List Level} {x : Symbol} {c : Closing}
  {w : Text}

lemma tracks_close (hn : n.commandPosition = true)
    (hs : (close levels c).place ≠ .strayWords) :
    Tracks (n.next (.word c.word.toList)) (close levels c) ∧
      (n.effect (.word c.word.toList)).Leads levels.length (close levels c).levels.length := by
  rw [NestingScan.next_closing hn, NestingScan.effect_closing hn]
  cases levels with
  | nil => cases c <;> exact absurd rfl hs
  | cons l outer =>
    cases c with
    | blockEnd => exact ⟨⟨rfl, fun h => by cases h⟩, rfl⟩
    | elseBranch =>
      cases l with
      | conditional => exact ⟨⟨rfl, fun _ => List.cons_ne_nil _ _⟩, rfl⟩
      | choice | plain => exact absurd rfl hs
    | nextCase =>
      cases l with
      | choice => exact ⟨⟨rfl, fun h => by cases h⟩, rfl⟩
      | conditional | plain => exact absurd rfl hs

lemma tracks_start (hc : Closing.ofWord? w = none) (hn : n.commandPosition = true)
    (hif : w = "if".toList → n.afterElse = false) :
    Tracks (n.next (.word w)) (start levels w) ∧
      (n.effect (.word w)).Leads levels.length (start levels w).levels.length := by
  unfold start
  cases hb : Block.ofOpener? w with
  | some b =>
    obtain rfl := Terminal.ofOpener?_eq_some hb
    have hif' : b = .ifBlock → n.afterElse = false := by
      rintro rfl
      exact hif rfl
    rw [next_opener b hn, NestingScan.effect_opener hn hif']
    refine ⟨⟨?_, fun h => ?_⟩, rfl⟩
    · cases b <;> rfl
    · cases b <;> cases h
  | none =>
    obtain ⟨-, hnext⟩ := next_plain hc hb n 0
    rw [hnext, hn, Bool.true_and, NestingScan.effect_plain hc hb]
    simp only
    split
    · rename_i hreturn
      obtain rfl := beq_iff_eq.1 hreturn
      exact ⟨⟨rfl, fun h => by cases h⟩, rfl⟩
    · split
      · rename_i hconj
        rw [hconj]
        exact ⟨⟨rfl, fun h => by cases h⟩, rfl⟩
      · rename_i hconj
        rw [Bool.eq_false_iff.2 hconj]
        exact ⟨⟨rfl, fun h => by cases h⟩, rfl⟩

lemma tracks_of_isWord_eq_false (n : NestingScan) (levels : List Level) (hx : x.isWord = false) :
    Tracks (n.next x) (atCommand levels x) ∧
      (n.effect x).Leads levels.length (atCommand levels x).levels.length := by
  cases x with
  | word w => cases hx
  | _ => exact ⟨⟨rfl, fun h => by cases h⟩, rfl⟩

lemma tracks_atCommand (hn : n.commandPosition = true)
    (hif : x = .word "if".toList → n.afterElse = false)
    (hs : (atCommand levels x).place ≠ .strayWords) :
    Tracks (n.next x) (atCommand levels x) ∧
      (n.effect x).Leads levels.length (atCommand levels x).levels.length := by
  cases hword : x.isWord with
  | false => exact tracks_of_isWord_eq_false n levels hword
  | true =>
    obtain ⟨w, rfl⟩ := Symbol.exists_of_isWord hword
    cases hc : Closing.ofWord? w with
    | some c =>
      obtain ⟨rfl⟩ := Symbol.word.inj (Terminal.closing?_eq_some (s := .word w) hc)
      rw [atCommand_closing (x := .word c.word.toList) hc] at hs ⊢
      exact tracks_close hn hs
    | none =>
      rw [atCommand_starter (Symbol.starter?_eq_some.2 ⟨rfl, hc⟩)]
      exact tracks_start hc hn fun hw => hif (by rw [hw])

/-- In source without bars and without words that stray, the scan of the nesting limit goes on to
know where the next terminal stands, and its answer is what the terminal does to the number of open
blocks. -/
theorem Tracks.step (h : b.Tracks n) (hx : x ≠ .pipe) (hs : (b.step x).place ≠ .strayWords) :
    (b.step x).Tracks (n.next x) ∧
      (n.effect x).Leads b.levels.length (b.step x).levels.length := by
  obtain ⟨place, levels⟩ := b
  obtain ⟨hstate, hclause⟩ := h
  cases place with
  | command =>
    obtain rfl := Option.some_inj.1 hstate
    exact tracks_atCommand rfl (fun _ => rfl) hs
  | afterElse =>
    obtain rfl := Option.some_inj.1 hstate
    by_cases hif : x = .word "if".toList
    · subst hif
      exact ⟨⟨rfl, fun h => by cases h⟩, rfl⟩
    · have hstep : BlockScan.step ⟨.afterElse, levels⟩ x = atCommand (.plain :: levels.tail) x :=
        if_neg hif
      -- the clause replaces the level of its conditional
      have hlength : (Level.plain :: levels.tail).length = levels.length := by
        obtain ⟨l, ls, rfl⟩ := List.exists_cons_of_ne_nil (hclause rfl)
        rfl
      rw [hstep] at hs ⊢
      have htracks := tracks_atCommand (n := ⟨true, true⟩) rfl (fun h => absurd h hif) hs
      rw [hlength] at htracks
      exact htracks
  | stage | strayWords => cases hstate
  | arguments =>
    obtain rfl := Option.some_inj.1 hstate
    cases hword : x.isWord with
    | true =>
      obtain ⟨w, rfl⟩ := Symbol.exists_of_isWord hword
      exact ⟨⟨rfl, fun h => by cases h⟩, rfl⟩
    | false =>
      have hstep : BlockScan.step ⟨.arguments, levels⟩ x = atCommand levels x := by
        simp only [BlockScan.step, hword, if_neg hx, Bool.false_eq_true, if_false]
      rw [hstep]
      exact tracks_of_isWord_eq_false _ levels hword
  | words =>
    obtain rfl := Option.some_inj.1 hstate
    cases hword : x.isWord with
    | true =>
      obtain ⟨w, rfl⟩ := Symbol.exists_of_isWord hword
      exact ⟨⟨rfl, fun h => by cases h⟩, rfl⟩
    | false =>
      have hstep : BlockScan.step ⟨.words, levels⟩ x = atCommand levels x := by
        simp only [BlockScan.step, hword, Bool.false_eq_true, if_false]
      rw [hstep]
      exact tracks_of_isWord_eq_false _ levels hword

/-- The two scans go on together up to the end of source without bars and without words that stray,
and the scan of the limit counts the blocks that are open. -/
lemma tracks_run {ts : List Terminal} (hpipe : ∀ t ∈ ts, t.symbol ≠ .pipe)
    (hstray : ∀ us, us <+: ts → (run us).place ≠ .strayWords) :
    ∀ us, us <+: ts → (run us).Tracks (.run us) ∧
      NestingScan.initial.count 0 us = (run us).levels.length := by
  intro us
  induction us using List.reverseRecOn with
  | nil => exact fun _ => ⟨⟨rfl, fun h => by cases h⟩, rfl⟩
  | append_singleton us t ih =>
    intro hus
    obtain ⟨htracks, hcount⟩ := ih ((List.prefix_append us [t]).trans hus)
    have hplace := hstray _ hus
    have hsymbol : t.symbol ≠ .pipe := hpipe t (hus.subset (by simp))
    rw [run_append_singleton] at hplace ⊢
    obtain ⟨htracks', hleads⟩ := htracks.step hsymbol hplace
    rw [NestingScan.count_append_singleton, NestingScan.run, List.foldl_append, hcount]
    exact ⟨htracks', NestingScan.depthAfter_of_leads hleads⟩

end BlockScan

/-! ## Errors stay -/

namespace Frame

variable {source : Text} {gs : List Span} {c : Code} {f : Frame} {t : Terminal} {m : Move}

/-- What is wrong with a node stays wrong when it goes on, unless it only lacks its `end`. -/
lemma Ready.fault?_move (hr : f.Ready source gs t) (hne : f.phrases ≠ [] ∨ f.kind ≠ .error)
    (hm : f.Rule t m) (hc : c ≠ .missingEnd) (h : f.fault? source = some c) :
    m.frame.fault? source = some c := by
  have hkind : f.kind = .error := by
    by_contra hk
    rw [fault?, fault?_of_kind hk] at h
    cases h
  have htake : ∀ p, (f.add p).fault? source = some c := by
    intro p
    have hparts : f.parts ≠ [] ∨ f.kind ≠ .error := hne.imp_left fun h => by simpa [parts] using h
    rw [fault?, parts_add]
    exact (fault?_concat hparts p.part).trans h
  cases hm with
  | @close _ _ _ b hl _ hrole =>
    obtain ⟨rfl, rfl⟩ := Holder.role_eq_closes hrole
    obtain ⟨clauses, hfits, -⟩ := hr
    obtain ⟨-, hopened⟩ := Expect.Fits.keeps hfits (Expect.holder?_of_listed? hl)
    have hshape : ErrorShape.unclosed.Fits source gs f.parts := ⟨b, clauses, hopened⟩
    -- the one fault that a move mends
    rw [fault?, hkind, fault?_of_error hshape, if_pos rfl, Option.some_inj] at h
    exact absurd h.symm hc
  | elseIf he =>
    obtain ⟨-, hk, -⟩ := hr.fits he (by simp)
    rw [hkind] at hk
    cases hk
  | pipe he =>
    obtain ⟨-, hk, -⟩ := hr.fits he (by simp)
    rw [hkind] at hk
    cases hk
  | join | dangle | garble | begin | clause | stray | condition | conditionJoin | conjoined
  | connected | joined | staged => exact h
  | _ => exact htake _

lemma Ready.faults_le_move (hr : f.Ready source gs t) (hne : f.phrases ≠ [] ∨ f.kind ≠ .error)
    (hm : f.Rule t m) (hc : c ≠ .missingEnd) : f.faults source c ≤ m.frame.faults source c := by
  have hown : faultCount source c f.kind f.parts ≤
      faultCount source c m.frame.kind m.frame.parts := by
    unfold faultCount
    split
    · rename_i h
      exact Nat.le_of_eq (if_pos (hr.fault?_move hne hm hc h)).symm
    · exact Nat.zero_le _
  have hphrases : faultsOf source c f.phrases ≤ faultsOf source c m.frame.phrases := by
    cases hm.effect with
    | take => exact Nat.le_add_left _ _
    | enter => exact Nat.le_refl _
    | pipe =>
      show _ ≤ Phrase.faults source c _ + (faultCount source c _ _ +
        faultsOf source c f.phrases.reverse + 0)
      rw [faultsOf_reverse]
      omega
  exact Nat.add_le_add hown hphrases

end Frame

namespace Stack

variable {source : Text} {gs : List Span} {c : Code} {t : Terminal} {s : Stack}

/-- No step mends an error, except that blocks are closed. -/
theorem Steady.total_le_step (h : s.Steady source gs) (hc : c ≠ .missingEnd) :
    s.total source c ≤ (s.step t).total source c := by
  refine h.step_induction
    (P := fun top below => s.total source c ≤ faults source c (top :: below))
    (Q := fun s' => s.total source c ≤ s'.total source c) (Nat.le_refl _)
    (fun ho _ hle => by rwa [faults_pop ho.filled]) ?_
  intro top below m ho hm hle
  have hmove := ho.ready.faults_le_move (FilledUpTo.phrases_or_kind ho.filled) hm hc
  have hframe : s.total source c ≤ faults source c (m.frame :: below) :=
    hle.trans (Nat.add_le_add_right hmove _)
  -- a node that is opened can only bring faults of its own
  unfold ofMove
  split
  · exact hframe
  · exact hframe.trans (Nat.le_add_left _ _)

lemma Steady.total_le_foldl {ts : List Terminal} (h : s.Steady source gs)
    (hts : ∀ t ∈ ts, t.Reads source ∧ t.Known gs) (hc : c ≠ .missingEnd) :
    s.total source c ≤ (ts.foldl Stack.step s).total source c := by
  induction ts generalizing s with
  | nil => exact Nat.le_refl _
  | cons t ts ih =>
    obtain ⟨⟨ht, hg⟩, hts⟩ := List.forall_mem_cons.1 hts
    exact (h.total_le_step hc).trans (ih (h.step ht hg) hts)

/-- An open node with the shape of an error is a fault, and one that stays unless the node is a
block without its `end`. -/
lemma exists_total_ne_zero {f : Frame} (hf : f ∈ s.top :: s.below) (hkind : f.kind = .error)
    {shape : ErrorShape} (hshape : shape.Fits source gs f.parts) :
    ∃ c : Code, (shape ≠ .unclosed → c ≠ .missingEnd) ∧ s.total source c ≠ 0 := by
  have hfault := fault?_of_error hshape
  rw [← hkind] at hfault
  generalize hcode : (if shape = .unclosed then Code.missingEnd
    else if f.parts.head?.any (·.isEnd source) then .extraEnd else .syntaxError) = c at hfault
  refine ⟨c, fun hne => ?_, fun hzero => ?_⟩
  · rw [← hcode, if_neg hne]
    split <;> simp
  · have hown := faults_eq_zero_of_mem hzero f hf
    rw [Frame.faults, faultCount, if_pos hfault] at hown
    omega

lemma Steady.exists_total_of_strayWords (h : s.Steady source gs)
    (hs : (scan s.top s.below).place = .strayWords) :
    ∃ c : Code, c ≠ .missingEnd ∧ s.total source c ≠ 0 := by
  have he : s.top.expect = .strayWords := by
    change s.top.expect.place = .strayWords at hs
    cases hx : s.top.expect <;> rw [hx] at hs <;> first | rfl | cases hs
  have hfits := h.settled.wellShaped.1
  rw [Frame.Fits, he] at hfits
  obtain ⟨c, hc, hne⟩ := exists_total_ne_zero List.mem_cons_self hfits.2.1 hfits.2.2
  exact ⟨c, hc (by simp), hne⟩

/-- What is wrong when all nodes are closed is what is wrong with the open ones. -/
lemma total_foldl (source : Text) (c : Code) (ts : List Terminal) :
    (ts.foldl Stack.step .initial).total source c = (parseTerminals ts).faults source c :=
  (faults_close (filledUpTo_foldl ts grounded_initial filledUpTo_initial)).symm

end Stack

/-- Source that parses without an error is at no place wrong in a way that cannot be mended. -/
lemma total_eq_zero_of_initial {source : Text} {gs : List Span} {ts : List Terminal}
    (hts : ∀ t ∈ ts, t.Reads source ∧ t.Known gs)
    (hfree : ∀ c, (parseTerminals ts).faults source c = 0) {us : List Terminal} (hus : us <+: ts)
    {c : Code} (hc : c ≠ .missingEnd) : (us.foldl Stack.step .initial).total source c = 0 := by
  obtain ⟨vs, rfl⟩ := hus
  obtain ⟨hus, hvs⟩ := List.forall_mem_append.1 hts
  refine Nat.le_zero.1 (((Stack.Steady.foldl hus).total_le_foldl hvs hc).trans ?_)
  rw [← List.foldl_append, Stack.total_foldl]
  exact Nat.le_of_eq (hfree c)

lemma place_run_ne_strayWords {source : Text} {gs : List Span} {ts : List Terminal}
    (hts : ∀ t ∈ ts, t.Reads source ∧ t.Known gs)
    (hfree : ∀ c, (parseTerminals ts).faults source c = 0) :
    ∀ us, us <+: ts → (BlockScan.run us).place ≠ .strayWords := by
  intro us hus hplace
  have hts' : ∀ t ∈ us, t.Reads source ∧ t.Known gs := fun t ht => hts t (hus.subset ht)
  rw [← (Stack.scan_foldl hts').2] at hplace
  obtain ⟨c, hc, hne⟩ := (Stack.Steady.foldl hts').exists_total_of_strayWords hplace
  exact hne (total_eq_zero_of_initial hts hfree hus hc)

/-! ## The answers of the scan -/

namespace NestingScan

/-- Some terminals with the answers of the scan. -/
def answers (n : NestingScan) : List Terminal → List (Terminal × Nesting)
  | [] => []
  | t :: ts => (t, n.effect t.symbol) :: answers (n.next t.symbol) ts

lemma answers_append_singleton (n : NestingScan) (ts : List Terminal) (t : Terminal) :
    n.answers (ts ++ [t]) = n.answers ts ++
      [(t, (ts.foldl (fun n t => n.next t.symbol) n).effect t.symbol)] := by
  induction ts generalizing n with
  | nil => rfl
  | cons u ts ih => rw [List.cons_append, answers, ih, answers, List.cons_append, List.foldl_cons]

lemma map_fst_answers (n : NestingScan) (ts : List Terminal) :
    (n.answers ts).map Prod.fst = ts := by
  induction ts generalizing n with
  | nil => rfl
  | cons t ts ih => rw [answers, List.map_cons, ih]

end NestingScan

/-- The leaf stands for the terminal and does to the number of open blocks what the scan answers. -/
def AnsweredBy (l : Leaf × Nesting) (x : Terminal × Nesting) : Prop := l.1.Of x.1 ∧ l.2 = x.2

/-- In source without bars that parses without an error the scan of the nesting limit answers for
every terminal what its leaf does to the number of open blocks. -/
theorem brackets_parseTerminals {source : Text} {gs : List Span} {ts : List Terminal}
    (hts : ∀ t ∈ ts, t.Reads source ∧ t.Known gs) (hpipe : ∀ t ∈ ts, t.symbol ≠ .pipe)
    (hfree : ∀ c, (parseTerminals ts).faults source c = 0) :
    List.Forall₂ AnsweredBy ((parseTerminals ts).brackets source false true)
      (NestingScan.initial.answers ts) := by
  have hstray := place_run_ne_strayWords hts hfree
  have hscan : ∀ us, us <+: ts → Stack.scan (us.foldl Stack.step .initial).top
      (us.foldl Stack.step .initial).below = BlockScan.run us :=
    fun us hus => (Stack.scan_foldl fun t ht => hts t (hus.subset ht)).2
  refine (Stack.Steady.run_induction_of_prefix
    (I := fun done s => s = done.foldl Stack.step .initial ∧
      List.Forall₂ AnsweredBy (s.phrase.brackets source false true)
        (NestingScan.initial.answers done)) ⟨rfl, .nil⟩ ?_ hts).2
  rintro s done t hrun hs ht hg ⟨heq, hbrackets⟩
  have hstep : s.step t = (done ++ [t]).foldl Stack.step .initial := by
    rw [List.foldl_append, ← heq]
    rfl
  refine ⟨hstep, ?_⟩
  obtain ⟨l, a, hl, hadd, hleads⟩ := hs.brackets_step ht hg
  have hdone : done <+: ts := (List.prefix_append done [t]).trans hrun
  have hbefore := hscan done hdone
  have hafter := hscan _ hrun
  rw [← hstep] at hafter
  rw [← heq] at hbefore
  -- both scans say what the terminal does to the number of open blocks
  obtain ⟨htracks, -⟩ := BlockScan.tracks_run hpipe hstray done hdone
  have hplace := hstray _ hrun
  rw [BlockScan.run_append_singleton] at hplace hafter
  obtain ⟨-, hanswer⟩ := htracks.step (hpipe t (hrun.subset (by simp))) hplace
  rw [← hafter, ← hbefore] at hanswer
  rw [hadd, NestingScan.answers_append_singleton]
  exact List.rel_append hbrackets (.cons ⟨hl, hleads.unique hanswer⟩ .nil)

/-! ## Source that the limit leaves alone -/

/-- In source without bars that parses without an error the limit changes nothing if and only if no
block nests deeper than it allows. -/
theorem limitNesting_eq_self_iff_depth {source : Text} {gs : List Span} {ts : List Terminal}
    (hts : ∀ t ∈ ts, t.Reads source ∧ t.Known gs) (hpipe : ∀ t ∈ ts, t.symbol ≠ .pipe)
    (hfree : ∀ c, (parseTerminals ts).faults source c = 0) :
    limitNesting ts = ts ↔ (parseTerminals ts).depth source ≤ maxNesting := by
  rw [NestingScan.limitNesting_eq_self_iff, depth_parseTerminals_le_iff hts]
  have htracks := BlockScan.tracks_run hpipe (place_run_ne_strayWords hts hfree)
  refine forall₂_congr fun us hus => ?_
  rw [(htracks us hus).2]

end FishScript
