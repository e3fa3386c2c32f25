/-
# Source behind a separator

When source that parses without an error ends with a separator, the parser is back where it began:
only the program is open, and the nesting limit knows of no open block. From there it does with
what follows what it does at the start of a source (`parseTerminals_append`), because it never looks
at what the program already holds, and at spans only to pass them on.
-/
import Mathlib
import FishScript.Proofs.Grammar.Agreement
import FishScript.Proofs.Token.Joining

namespace FishScript

/-! ## The stack behind a separator -/

namespace Stack

variable {source : Text} {gs : List Span} {t : Terminal} {s : Stack}

/-- Behind a separator the innermost node is in a list of statements and holds the separator. -/
lemma Steady.separator (h : s.Steady source gs) (hs : t.symbol = .separator) :
    ∃ holder ps, (s.step t).top.expect = .statements holder false ∧
      (s.step t).top.phrases = .leaf .terminator none t.span :: ps := by
  refine h.step_induction (P := fun _ _ => True) (Q := fun s' => ∃ holder ps,
    s'.top.expect = .statements holder false ∧
      s'.top.phrases = .leaf .terminator none t.span :: ps) trivial (fun _ _ _ => trivial) ?_
  intro top below m _ hm _
  obtain ⟨e, -, he, rfl⟩ := hm.terminated (.inl hs)
  obtain ⟨holder, rfl⟩ := he hs
  exact ⟨holder, top.phrases, rfl, rfl⟩

lemma Steady.garbage (h : s.Steady source gs) (hs : t.symbol = .garbage) :
    (s.step t).top.expect = .garbage := by
  refine h.step_induction (P := fun _ _ => True) (Q := fun s' => s'.top.expect = .garbage) trivial
    (fun _ _ _ => trivial) ?_
  intro top below m _ hm _
  cases hm with
  | garble | garbage => rfl
  | terminator _ hs' | comment _ hs' | functionName _ hs' | functionOption _ hs' | loopName _ hs'
  | loopIn _ hs' | loopItem _ hs' | headerWord _ hs' | elseIf _ hs' | finalWord _ hs'
  | argument _ hs' | pipe _ hs' | lineComment _ hs' | lineBreak _ hs' | stageBreak _ hs'
  | bar _ hs' => simp [hs] at hs'
  | dangle _ hs' | join _ hs' | begin _ hs' | close _ hs' | clause _ hs' | stray _ hs'
  | condition _ hs' | conditionJoin _ hs' | strayWord _ hs' | conjunction _ hs' | conjoined _ hs'
  | connector _ hs' | connected _ hs' | joined _ hs' | staged _ hs' =>
    simp [hs, Symbol.isConnector, Symbol.starter?, Symbol.closing?] at hs'

/-- A node in a list of statements is the program, unless something is wrong. -/
lemma Steady.eq_program (h : s.Steady source gs) (hfree : ∀ c, s.total source c = 0)
    {holder : Holder} {j : Bool} (he : s.top.expect = .statements holder j) :
    s.below = [] ∧ s.top.kind = .program ∧ s.top.field = none ∧ holder = .program := by
  have hsound : ∀ f ∈ s.top :: s.below, f.kind = .error →
      ∀ shape : ErrorShape, ¬ shape.Fits source gs f.parts := by
    intro f hf hkind shape hshape
    obtain ⟨c, -, hne⟩ := exists_total_ne_zero hf hkind hshape
    exact hne (hfree c)
  obtain ⟨hfits, hchained⟩ := h.settled.wellShaped
  have hroot := h.settled.grounded
  have hnested := h.settled.nested
  obtain ⟨top, below⟩ := s
  change top.expect = _ at he
  change Rooted top below at hroot
  have hkeeps : holder.Keeps source [] top.kind top.parts :=
    Expect.Fits.keeps hfits (by rw [he]; rfl)
  -- a clause stands in a block, which has no `end` yet
  have hclause : ∀ b, top.kind.clauseOf? ≠ some b := by
    intro b hb
    cases below with
    | nil =>
      rw [hroot.1] at hb
      cases hb
    | cons next below =>
      have hawaits := hchained.2.1
      unfold Frame.Awaits at hawaits
      rw [hb] at hawaits
      obtain ⟨-, -, hkind, clauses, hopened, -⟩ := hawaits
      exact hsound next (by simp) hkind .unclosed ⟨b, clauses, hopened⟩
  cases holder with
  | program =>
    cases below with
    | nil => exact ⟨rfl, hroot.1, hroot.2.1, rfl⟩
    | cons next below => exact absurd (by rw [he]; rfl) hnested.1
  | block b =>
    obtain ⟨hkind, hopened⟩ := hkeeps
    exact absurd ⟨b, [], hopened⟩ (hsound top (by simp) hkind .unclosed)
  | elseIf =>
    exact absurd (by rw [hkeeps.1]; rfl) (hclause .ifBlock)
  | otherwise =>
    exact absurd (by rw [hkeeps.1]; rfl) (hclause .ifBlock)
  | caseClause =>
    exact absurd (by rw [hkeeps.1]; rfl) (hclause .switchBlock)

end Stack

section ErrorFree

variable {source : Text} {gs : List Span} {ts : List Terminal}

lemma symbol_ne_garbage (hts : ∀ t ∈ ts, t.Reads source ∧ t.Known gs)
    (hfree : ∀ c, (parseTerminals ts).faults source c = 0) : ∀ t ∈ ts, t.symbol ≠ .garbage := by
  intro t ht hs
  obtain ⟨us, vs, rfl⟩ := List.append_of_mem ht
  have hsteady := Stack.Steady.foldl fun u (hu : u ∈ us) => hts u (by simp [hu])
  have hexpect := hsteady.garbage hs
  have hfits := (hsteady.step (hts t ht).1 (hts t ht).2).settled.wellShaped.1
  rw [Frame.Fits, hexpect] at hfits
  obtain ⟨c, hc, hne⟩ := Stack.exists_total_ne_zero List.mem_cons_self hfits.2.1 hfits.2.2
  have hrun : us ++ [t] <+: us ++ t :: vs := ⟨vs, by simp⟩
  have hzero := total_eq_zero_of_initial hts hfree hrun (hc (by simp))
  rw [List.foldl_append] at hzero
  exact hne hzero

/-- Behind source that parses without an error and ends with a separator only the program is open,
as at the start. -/
lemma foldl_step_of_separator (hts : ∀ t ∈ ts, t.Reads source ∧ t.Known gs)
    (hfree : ∀ c, (parseTerminals ts).faults source c = 0)
    (hlast : ∀ t ∈ ts.getLast?, t.symbol = .separator) (hne : ts ≠ []) :
    ∃ span ps, ts.foldl Stack.step .initial = ⟨⟨.program, none, .leaf .terminator none span :: ps,
      .statements .program false⟩, []⟩ := by
  obtain ⟨us, t, rfl⟩ := (List.eq_nil_or_concat' ts).resolve_left hne
  have hs : t.symbol = .separator := hlast t (by simp)
  obtain ⟨ht, hg⟩ := hts t (by simp)
  have hsteady := Stack.Steady.foldl fun u (hu : u ∈ us) => hts u (List.mem_append_left _ hu)
  obtain ⟨holder, ps, hexpect, hphrases⟩ := hsteady.separator hs
  have hzero : ∀ c, ((us ++ [t]).foldl Stack.step .initial).total source c = 0 := fun c => by
    rw [Stack.total_foldl, hfree]
  rw [List.foldl_append] at hzero ⊢
  -- any other list of statements would belong to a block without its `end`
  obtain ⟨hbelow, hkind, hfield, rfl⟩ := (hsteady.step ht hg).eq_program hzero hexpect
  refine ⟨t.span, ps, ?_⟩
  rw [List.foldl_cons, List.foldl_nil]
  generalize (us.foldl Stack.step .initial).step t = s at *
  obtain ⟨⟨kind, field, phrases, expect⟩, below⟩ := s
  simp only at hexpect hphrases hbelow hkind hfield
  rw [hexpect, hphrases, hbelow, hkind, hfield]

/-- Behind such source without bars the nesting limit goes on as at the start. -/
lemma limitNesting_append (hts : ∀ t ∈ ts, t.Reads source ∧ t.Known gs)
    (hfree : ∀ c, (parseTerminals ts).faults source c = 0)
    (hpipe : ∀ t ∈ ts, t.symbol ≠ .pipe) (hlimit : limitNesting ts = ts)
    (hlast : ∀ t ∈ ts.getLast?, t.symbol = .separator) (hne : ts ≠ []) (rest : List Terminal) :
    limitNesting (ts ++ rest) = ts ++ limitNesting rest := by
  obtain ⟨span, ps, hstack⟩ := foldl_step_of_separator hts hfree hlast hne
  have hscan := (Stack.scan_foldl hts).2
  rw [hstack] at hscan
  obtain ⟨htracks, hcount⟩ :=
    BlockScan.tracks_run hpipe (place_run_ne_strayWords hts hfree) ts List.prefix_rfl
  rw [← hscan] at htracks hcount
  -- the scan of the limit is in step with the stack, which is that at the start
  have hstate : NestingScan.run ts = .initial := (Option.some_inj.1 htracks.state).symm
  rw [limitNesting, NestingScan.limitFrom_append (NestingScan.limitNesting_eq_self_iff.1 hlimit),
    hcount, ← NestingScan.run, hstate]
  rfl

end ErrorFree

/-! ## Shifted terminals -/

/-- The block that is being folded, some bytes further on. -/
def Fold.shift (k : Nat) (f : Fold) : Fold := { f with start := f.start + k, stop := f.stop + k }

lemma Fold.depthAfter_shift (k : Nat) (f : Fold) (e : Nesting) :
    (f.shift k).depthAfter e = f.depthAfter e := by
  cases e <;> rfl

lemma limitFrom_shift (k : Nat) : ∀ (ts : List Terminal) (n : NestingScan) (depth : Nat)
    (fold? : Option Fold),
    limitFrom n depth (fold?.map (Fold.shift k)) (ts.map (Terminal.shift k)) =
      (limitFrom n depth fold? ts).map (Terminal.shift k)
  | [], n, depth, none => rfl
  | [], n, depth, some fold => rfl
  | t :: ts, n, depth, some fold => by
    rw [List.map_cons, Option.map_some]
    have hsymbol : (t.shift k).symbol = t.symbol := rfl
    simp only [limitFrom, hsymbol, Fold.depthAfter_shift]
    split
    · exact congrArg _ (limitFrom_shift k ts (n.next t.symbol) depth none)
    · exact limitFrom_shift k ts (n.next t.symbol) depth
        (some ⟨fold.depthAfter (n.effect t.symbol), fold.start, t.span.stop⟩)
  | t :: ts, n, depth, none => by
    rw [List.map_cons, Option.map_none]
    have hsymbol : (t.shift k).symbol = t.symbol := rfl
    cases he : n.effect t.symbol with
    | opens =>
      simp only [limitFrom, hsymbol, he]
      split
      · exact limitFrom_shift k ts (n.next t.symbol) depth (some ⟨1, t.span.start, t.span.stop⟩)
      · exact congrArg _ (limitFrom_shift k ts (n.next t.symbol) (depth + 1) none)
    | closes =>
      simp only [limitFrom, hsymbol, he]
      exact congrArg _ (limitFrom_shift k ts (n.next t.symbol) (depth - 1) none)
    | same =>
      simp only [limitFrom, hsymbol, he]
      exact congrArg _ (limitFrom_shift k ts (n.next t.symbol) depth none)

mutual

/-- The phrase some bytes further on. -/
def Phrase.shift (k : Nat) : Phrase → Phrase
  | .leaf kind field span => .leaf kind field (span.shift k)
  | .node kind field children => .node kind field (shiftPhrases k children)

/-- Phrases some bytes further on. -/
def shiftPhrases (k : Nat) : List Phrase → List Phrase
  | [] => []
  | p :: rest => p.shift k :: shiftPhrases k rest

end

lemma shiftPhrases_eq_map (k : Nat) (ps : List Phrase) :
    shiftPhrases k ps = ps.map (Phrase.shift k) := by
  induction ps with
  | nil => rfl
  | cons p ps ih => rw [shiftPhrases, ih, List.map_cons]

/-! ## The parser behind other source -/

namespace Frame

variable {k : Nat} {ps : List Phrase} {f : Frame} {t : Terminal}

/-- The node some bytes further on, behind the phrases `ps`, the last of which is first. -/
def follow (k : Nat) (ps : List Phrase) (f : Frame) : Frame :=
  { f with phrases := f.phrases.map (Phrase.shift k) ++ ps }

end Frame

/-- The move of a node that follows phrases. -/
def Move.follow (k : Nat) (ps : List Phrase) (m : Move) : Move :=
  ⟨m.frame.follow k ps, m.inner?.map (Frame.follow k [])⟩

namespace Frame

variable {k : Nat} {ps : List Phrase} {f : Frame} {t : Terminal}

lemma phrase_follow (f : Frame) : (f.follow k []).phrase = f.phrase.shift k := by
  rw [phrase, phrase, Phrase.shift, shiftPhrases_eq_map, List.map_reverse]
  simp [follow]

lemma construct_follow (field : Option Field) (t : Terminal) (w : Text) :
    (construct field t w).follow k [] = construct field (t.shift k) w := by
  unfold construct
  split
  · rfl
  · split
    · rfl
    · split <;> rfl

lemma piped_follow (f : Frame) (t : Terminal) :
    (f.follow k []).piped (t.shift k) = (f.piped t).follow k [] := by
  simp [piped, follow, Phrase.shift, shiftPhrases_eq_map, Terminal.shift]

lemma inStatements_follow (holder : Holder) (j : Bool) :
    (f.follow k ps).inStatements holder j (t.shift k) =
      (f.inStatements holder j t).map (Move.follow k ps) := by
  have hsymbol : (t.shift k).symbol = t.symbol := rfl
  unfold inStatements
  rw [hsymbol]
  cases t.symbol with
  | andAnd | orOr => cases j <;> rfl
  | word w =>
    cases hc : Closing.ofWord? w with
    | none =>
      simp only [hc, ← construct_follow]
      rfl
    | some c =>
      simp only [hc]
      cases holder.role c with
      | beginsClause => cases c <;> rfl
      | _ => rfl
  | _ => rfl

/-- A node that is not the program sees nothing of its phrases or of spans, and the program never
sees what it holds. -/
theorem accept_follow (h : ps = [] ∨ f.IsRoot) :
    (f.follow k ps).accept (t.shift k) = (f.accept t).map (Move.follow k ps) := by
  have hsymbol : (t.shift k).symbol = t.symbol := rfl
  have hexpect : (f.follow k ps).expect = f.expect := rfl
  unfold accept
  rw [hexpect, hsymbol]
  cases he : f.expect with
  | statements holder j => exact inStatements_follow holder j
  | functionHeader named =>
    cases hs : t.symbol with
    | word w =>
      simp only [inFunctionHeader]
      split <;> rfl
    | _ => exact inStatements_follow _ _
  | loopHeader named listed =>
    cases hs : t.symbol with
    | word w =>
      simp only [inLoopHeader]
      split
      · rfl
      · split <;> rfl
    | _ => exact inStatements_follow _ _
  | headerWords holder =>
    cases hs : t.symbol with
    | word w => rfl
    | _ => exact inStatements_follow _ _
  | condition holder =>
    cases hs : t.symbol.starter? with
    | some w =>
      simp only [← construct_follow]
      rfl
    | none => exact inStatements_follow _ _
  | conditionRest holder =>
    simp only
    split
    · rfl
    · exact inStatements_follow _ _
  | elseHead =>
    simp only
    split
    · rfl
    · exact inStatements_follow _ _
  | finalWords => cases t.symbol <;> rfl
  | strayWords => cases hs : t.symbol.starter? <;> rfl
  | arguments staged scan =>
    cases hs : t.symbol with
    | pipe =>
      cases staged with
      | true => rfl
      | false =>
        -- the phrases of a command stand in the new node, but those of the program never do
        obtain rfl | ⟨-, -, j, hroot⟩ := h
        · simp only [Bool.false_eq_true, if_false, piped_follow]
          rfl
        · rw [he] at hroot
          cases hroot
    | _ => rfl
  | conjunctions =>
    cases hs : t.symbol.starter? with
    | some w =>
      simp only [← construct_follow]
      split <;> rfl
    | none => rfl
  | connectors =>
    simp only
    split
    · rfl
    · cases hs : t.symbol.starter? with
      | some w =>
        simp only [Option.map_some, ← construct_follow]
        rfl
      | none => rfl
  | garbage => cases t.symbol <;> rfl
  | joined =>
    cases hs : t.symbol with
    | word w =>
      simp only [← construct_follow]
      cases (Symbol.word w).starter? <;> rfl
    | _ => rfl
  | stage =>
    cases hs : t.symbol with
    | word w =>
      simp only
      cases (Symbol.word w).starter? <;> rfl
    | _ => rfl
  | bar => cases t.symbol <;> rfl
  | nothing => rfl

end Frame

namespace Stack

variable {k : Nat} {ps : List Phrase} {t : Terminal}

/-- What the node around which `below` are open stands behind: the phrases, if it is the
outermost. -/
def behind (ps : List Phrase) : List Frame → List Phrase
  | [] => ps
  | _ :: _ => []

/-- The open nodes around another one some bytes further on, the outermost behind the phrases. -/
def followAll (k : Nat) (ps : List Phrase) : List Frame → List Frame
  | [] => []
  | f :: below => f.follow k (behind ps below) :: followAll k ps below

/-- The stack some bytes further on, behind the phrases `ps`, the last of which is first. -/
def follow (k : Nat) (ps : List Phrase) (s : Stack) : Stack :=
  ⟨s.top.follow k (behind ps s.below), followAll k ps s.below⟩

lemma ofMove_follow (m : Move) (below : List Frame) :
    ofMove (m.follow k (behind ps below)) (followAll k ps below) =
      (ofMove m below).follow k ps := by
  obtain ⟨frame, inner?⟩ := m
  cases inner? <;> rfl

lemma offer_follow : ∀ {below : List Frame} {top : Frame}, Rooted top below →
    offer (t.shift k) (top.follow k (behind ps below)) (followAll k ps below) =
      (offer t top below).follow k ps
  | [], top, hroot => by
    have haccept : (top.follow k ps).accept (t.shift k) = _ := Frame.accept_follow (.inr hroot)
    obtain ⟨m, hm⟩ := Option.ne_none_iff_exists'.1 (hroot.accept_ne_none t)
    rw [hm] at haccept
    rw [offer, hm, followAll, offer, behind, haccept]
    exact ofMove_follow m []
  | next :: below, top, hroot => by
    have haccept : (top.follow k []).accept (t.shift k) = _ := Frame.accept_follow (.inl rfl)
    rw [followAll, offer, offer, behind, haccept]
    cases hm : top.accept t with
    | some m => exact ofMove_follow m (next :: below)
    | none =>
      rw [Option.map_none, Frame.phrase_follow]
      exact offer_follow (hroot.pop _)

lemma step_follow {s : Stack} (h : s.Grounded) (t : Terminal) :
    (s.follow k ps).step (t.shift k) = (s.step t).follow k ps := offer_follow h

/-- A run behind phrases is the run without them. -/
theorem foldl_follow {s : Stack} (h : s.Grounded) (ts : List Terminal) :
    (ts.map (Terminal.shift k)).foldl step (s.follow k ps) = (ts.foldl step s).follow k ps := by
  induction ts generalizing s with
  | nil => rfl
  | cons t ts ih =>
    rw [List.map_cons, List.foldl_cons, List.foldl_cons, step_follow h, ih (h.step t)]

/-- What the program holds when all nodes are closed stands behind the phrases. -/
lemma phrase_follow (k : Nat) (ps : List Phrase) : ∀ {below : List Frame} {top : Frame},
    Rooted top below →
    ∃ children, close top below = .node .program none children ∧
      close (top.follow k (behind ps below)) (followAll k ps below) =
        .node .program none (ps.reverse ++ children.map (Phrase.shift k))
  | [], top, ⟨hkind, hfield, _⟩ => by
    refine ⟨top.phrases.reverse, ?_, ?_⟩
    · rw [close, Frame.phrase, hkind, hfield]
    · simp [close, Frame.phrase, followAll, behind, Frame.follow, hkind, hfield]
  | next :: below, top, hroot => by
    obtain ⟨children, hclose, hfollow⟩ := phrase_follow k ps (hroot.pop top.phrase)
    refine ⟨children, hclose, ?_⟩
    rw [followAll, close, behind, Frame.phrase_follow]
    exact hfollow

end Stack

/-- The phrases of terminals behind source that parses without an error and ends with a separator
are those of the source and then those of the terminals. -/
theorem parseTerminals_append {source : Text} {gs : List Span} {ts : List Terminal}
    (hts : ∀ t ∈ ts, t.Reads source ∧ t.Known gs)
    (hfree : ∀ c, (parseTerminals ts).faults source c = 0)
    (hlast : ∀ t ∈ ts.getLast?, t.symbol = .separator) (hne : ts ≠ []) (k : Nat)
    (rest : List Terminal) :
    ∃ init span children, parseTerminals ts =
        .node .program none (init ++ [.leaf .terminator none span]) ∧
      parseTerminals rest = .node .program none children ∧
      parseTerminals (ts ++ rest.map (Terminal.shift k)) = .node .program none
        (init ++ [.leaf .terminator none span] ++ children.map (Phrase.shift k)) := by
  obtain ⟨span, ps, hstack⟩ := foldl_step_of_separator hts hfree hlast hne
  -- the stack is that at the start, behind what the program holds
  have hstart : ts.foldl Stack.step .initial =
      Stack.initial.follow k (.leaf .terminator none span :: ps) := hstack
  obtain ⟨children, hchildren, hfollow⟩ := Stack.phrase_follow k
    (.leaf .terminator none span :: ps) (Stack.grounded_initial.foldl rest)
  refine ⟨ps.reverse, span, children, ?_, hchildren, ?_⟩
  · rw [parseTerminals, hstack, ← List.reverse_cons]
    rfl
  · rw [← List.reverse_cons, ← hfollow, parseTerminals, List.foldl_append, hstart,
      Stack.foldl_follow Stack.grounded_initial]
    rfl

end FishScript
