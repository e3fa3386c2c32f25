/-
# Reading words and commands

What the parser does with the simple parts of a printed program. Between two lexemes it *rests* on
an open node: the nodes inside are complete, and the next lexeme, if it is of the sort that may
come, is handed out of them (`Stack.Rests`). So a run over a part of a program can be described by
the phrases that it adds to the node on which it rests, without the nodes that are still open
behind the last lexeme.
-/
import Mathlib
import FishScript.Proofs.Program.Drawing
import FishScript.Proofs.Grammar.Rules

namespace FishScript

open Program

/-! ## Nodes that take phrases -/

namespace Frame

/-- The node with more phrases, where it expects something else. -/
def extend (f : Frame) (ps : List Phrase) (e : Expect) : Frame :=
  { f with phrases := ps.reverse ++ f.phrases, expect := e }

variable (f : Frame) (ps qs : List Phrase) (e e' : Expect)

@[simp] lemma extend_kind : (f.extend ps e).kind = f.kind := rfl

@[simp] lemma extend_field : (f.extend ps e).field = f.field := rfl

@[simp] lemma extend_expect : (f.extend ps e).expect = e := rfl

@[simp] lemma extend_extend : (f.extend ps e).extend qs e' = f.extend (ps ++ qs) e' := by
  simp [extend]

lemma extend_nil : f.extend [] f.expect = f := rfl

@[simp] lemma extend_add (p : Phrase) : (f.extend ps e).add p = f.extend (ps ++ [p]) e := by
  simp [extend, add]

lemma phrase_extend :
    (f.extend ps e).phrase = .node f.kind f.field (f.phrases.reverse ++ ps) := by
  simp [extend, phrase]

end Frame

/-! ## Stacks that rest on a node -/

namespace Stack

/-- The stack after some printed lexemes. -/
def read (s : Stack) (xs : List Placed) : Stack := xs.foldl (fun s x => s.step x.terminal) s

lemma read_cons (s : Stack) (x : Placed) (xs : List Placed) :
    s.read (x :: xs) = (s.step x.terminal).read xs := rfl

lemma read_append (s : Stack) (xs ys : List Placed) : s.read (xs ++ ys) = (s.read xs).read ys :=
  List.foldl_append

/-- A symbol of the sort is handed to the node, whatever stands inside it. -/
def Rests (P : Symbol → Prop) (s : Stack) (f : Frame) (below : List Frame) : Prop :=
  ∀ t : Terminal, P t.symbol → s.step t = offer t f below

variable {P Q : Symbol → Prop} {s : Stack} {f g : Frame} {below : List Frame} {t : Terminal}

lemma rests_self (P : Symbol → Prop) (f : Frame) (below : List Frame) :
    Rests P ⟨f, below⟩ f below := fun _ _ => rfl

lemma Rests.mono (h : Rests P s f below) (hPQ : ∀ x, Q x → P x) : Rests Q s f below :=
  fun t ht => h t (hPQ t.symbol ht)

/-- A node that has no use for the symbols is complete. -/
lemma Rests.pop (h : Rests P s f (g :: below)) (hf : ∀ t, P t.symbol → f.accept t = none) :
    Rests P s (g.add f.phrase) below := by
  intro t ht
  rw [h t ht, offer_of_refuse (hf t ht)]

lemma Rests.step (h : Rests P s f below) (hP : P t.symbol) {m : Move} (hm : f.Rule t m) :
    s.step t = ofMove m below := by
  rw [h t hP, offer_of_accept (Frame.accept_eq_some_iff.2 hm)]

lemma step_of_rule {m : Move} (hm : f.Rule t m) : step ⟨f, below⟩ t = ofMove m below :=
  (rests_self (fun _ => True) f below).step trivial hm

variable {l : Lexeme} {span : Span} {kind : NodeKind} {field : Option Field} {e : Expect}

lemma Rests.take (h : Rests P s f below) (hP : P l.symbol)
    (hm : f.Rule (Placed.terminal ⟨l, span⟩) (f.take kind field (Placed.terminal ⟨l, span⟩) e)) :
    s.step (Placed.terminal ⟨l, span⟩) = ⟨f.extend [.leaf kind field span] e, below⟩ :=
  h.step hP hm

lemma step_take
    (hm : f.Rule (Placed.terminal ⟨l, span⟩) (f.take kind field (Placed.terminal ⟨l, span⟩) e)) :
    step ⟨f, below⟩ (Placed.terminal ⟨l, span⟩) = ⟨f.extend [.leaf kind field span] e, below⟩ :=
  step_of_rule hm

end Stack

namespace Program

/-! ## Words -/

lemma exists_placed {xs : List Placed} {l : Lexeme} {ls : List Lexeme}
    (h : xs.map Placed.lexeme = l :: ls) :
    ∃ span xs', xs = ⟨l, span⟩ :: xs' ∧ xs'.map Placed.lexeme = ls := by
  obtain ⟨⟨l', span⟩, xs', rfl, rfl, hxs'⟩ := List.map_eq_cons_iff.1 h
  exact ⟨span, xs', rfl, hxs'⟩

lemma wordKind_named (w : Text) : (wordKind w).isNamed = true ∧ wordKind w ≠ .error := by
  unfold wordKind
  split <;> decide

/-- A node that expects this takes words, all in the same role, and expects it again. -/
def TakesWords (e : Expect) (role : Field) : Prop :=
  ∀ (f : Frame) (t : Terminal) (w : Text), f.expect = e → t.symbol = .word w →
    f.Rule t (f.take (wordKind w) (some role) t e)

lemma takesWords_header (holder : Holder) : TakesWords (.headerWords holder) .argument :=
  fun _ _ _ he ht => .headerWord he ht

lemma takesWords_items : TakesWords (.loopHeader true true) .argument :=
  fun _ _ _ he ht => .loopItem he ht (.inl rfl)

lemma takesWords_options : TakesWords (.functionHeader true) .option :=
  fun _ _ _ he ht => .functionOption he ht (.inl rfl)

lemma takesWords_final : TakesWords .finalWords .argument :=
  fun _ _ _ he ht => .finalWord he ht

lemma read_words {e : Expect} {role : Field} (htakes : TakesWords e role) :
    ∀ (ws : List Word) {xs : List Placed} (f : Frame) (below : List Frame),
      xs.map Placed.lexeme = ws.map .word → f.expect = e →
        ∃ ps, Shows ps xs (wordOutlines role ws) ∧
          Stack.read ⟨f, below⟩ xs = ⟨f.extend ps e, below⟩
  | [], xs, f, below, hxs, he => by
    obtain rfl := List.map_eq_nil_iff.1 hxs
    subst he
    exact ⟨[], .nil, rfl⟩
  | w :: ws, xs, f, below, hxs, he => by
    obtain ⟨span, xs, rfl, htail⟩ := exists_placed hxs
    have hfirst : Stack.step ⟨f, below⟩ (Placed.terminal ⟨.word w, span⟩) =
        ⟨f.extend [.leaf (wordKind w.text) (some role) span] e, below⟩ :=
      Stack.step_take (htakes f _ w.text he rfl)
    obtain ⟨ps, hps, hread⟩ := read_words htakes ws
      (f.extend [.leaf (wordKind w.text) (some role) span] e) below htail rfl
    obtain ⟨hnamed, herror⟩ := wordKind_named w.text
    refine ⟨.leaf (wordKind w.text) (some role) span :: ps,
      .word (x := ⟨.word w, span⟩) hnamed herror hps, ?_⟩
    rw [Stack.read_cons, hfirst, hread, Frame.extend_extend]
    rfl

/-! ## The variable of a command -/

/-- The outlines of arguments as a scan for the variable sees them. -/
def scanOutlines : DefinitionScan → List Word → List Outline
  | _, [] => []
  | scan, w :: ws =>
    .node (scan.step w.text).1 (some .argument) w.text [] ::
      scanOutlines (scan.step w.text).2 ws

lemma scanOutlines_idle (ws : List Word) :
    scanOutlines .idle ws = wordOutlines .argument ws := by
  induction ws with
  | nil => rfl
  | cons w ws ih => rw [scanOutlines, DefinitionScan.step, ih]; rfl

/-- What a scan that still searches does with a word, in the terms of `setTarget?`. -/
lemma step_searching (w : Text) :
    DefinitionScan.step .searching w =
      if w = "--".toList then (.option, .next)
      else if wordKind w = .option then (.option, if asksOnly w then .idle else .searching)
      else (.variableDefinition, .idle) := by
  have hoption : ∀ c u, wordKind ('-' :: c :: u) = .option := fun _ _ => rfl
  unfold DefinitionScan.step
  split
  case h_1 h => cases h
  case h_2 h => cases h
  case h_3 => rfl
  case h_4 long hlong _ =>
    have hdashes : '-' :: '-' :: long ≠ "--".toList := by simpa using hlong
    rw [if_neg hdashes, if_pos (hoption _ _)]
    rfl
  case h_5 c short _ hc _ =>
    have hdashes : '-' :: c :: short ≠ "--".toList := by simpa using fun h => absurd h hc
    have hasks : asksOnly ('-' :: c :: short) = (c :: short).any DefinitionScan.readsShort := by
      unfold asksOnly
      split
      · rename_i heq
        exact absurd (List.cons.inj (List.cons.inj heq).2).1 hc
      · rename_i heq
        rw [(List.cons.inj heq).2]
      · rename_i hshort
        exact absurd rfl (hshort _)
    rw [if_neg hdashes, if_pos (hoption _ _), hasks]
  case h_6 w _ _ _ hdashes _ hshort =>
    have hdashes' : w ≠ "--".toList := by simpa using hdashes
    have hword : wordKind w ≠ .option := by
      unfold wordKind
      split
      · rename_i c u _
        exact (hshort c u rfl).elim
      · decide
    rw [if_neg hdashes', if_neg hword]

lemma setTarget?_dashes (ws : List Text) : setTarget? ("--".toList :: ws) = some 1 := by
  simp [setTarget?]

/-- Behind an option the variable is found as without it, unless the option only asks. -/
lemma setTarget?_option {w : Text} (hw : w ≠ "--".toList) (hoption : wordKind w = .option)
    (ws : List Text) : setTarget? (w :: ws) =
      if asksOnly w then none else (setTarget? ws).map (· + 1) := by
  have hpasses : (wordKind w == .option && w != "--".toList) = true := by
    rw [Bool.and_eq_true, beq_iff_eq, bne_iff_ne]
    exact ⟨hoption, hw⟩
  simp only [setTarget?, List.takeWhile_cons, hpasses, if_true, List.any_cons,
    List.length_cons, List.getElem?_cons_succ]
  cases hasks : asksOnly w with
  | true => rfl
  | false =>
    simp only [Bool.false_or, Bool.false_eq_true, if_false]
    split
    · rfl
    · split <;> rfl

lemma setTarget?_operand {w : Text} (hw : w ≠ "--".toList) (hword : wordKind w ≠ .option)
    (ws : List Text) : setTarget? (w :: ws) = some 0 := by
  have hstops : (wordKind w == .option && w != "--".toList) = false := by
    rw [beq_false_of_ne hword, Bool.false_and]
  have hoptions :
      (w :: ws).takeWhile (fun w => wordKind w == .option && w != "--".toList) = [] := by
    rw [List.takeWhile_cons, hstops]
    rfl
  simp only [setTarget?, hoptions, List.any_nil, List.length_nil, List.getElem?_cons_zero,
    Option.some.injEq, hw, if_false, Bool.false_eq_true]

lemma argumentOutlines_none (ws : List Word) :
    argumentOutlines none ws = wordOutlines .argument ws := by
  induction ws with
  | nil => rfl
  | cons w ws ih =>
    rw [argumentOutlines, List.mapIdx_cons]
    exact congrArg _ ih

lemma argumentOutlines_zero (w : Word) (ws : List Word) :
    argumentOutlines (some 0) (w :: ws) =
      .node .variableDefinition (some .argument) w.text [] :: wordOutlines .argument ws := by
  rw [argumentOutlines, List.mapIdx_cons, ← argumentOutlines_none, argumentOutlines]
  simp

lemma argumentOutlines_succ (place? : Option Nat) (w : Word) (ws : List Word) :
    argumentOutlines (place?.map (· + 1)) (w :: ws) =
      .node (wordKind w.text) (some .argument) w.text [] :: argumentOutlines place? ws := by
  rw [argumentOutlines, List.mapIdx_cons, argumentOutlines]
  cases place? with
  | none => simp
  | some place => simp

/-- A scan that searches finds the variable where `setTarget?` says. -/
lemma scanOutlines_searching (ws : List Word) :
    scanOutlines .searching ws = argumentOutlines (setTarget? (ws.map Word.text)) ws := by
  induction ws with
  | nil => rfl
  | cons w ws ih =>
    rw [scanOutlines, step_searching, List.map_cons]
    by_cases hdashes : w.text = "--".toList
    · have hvariable : setTarget? (w.text :: ws.map Word.text) = (some 0).map (· + 1) := by
        rw [hdashes]
        exact setTarget?_dashes _
      have hoption : wordKind w.text = .option := by rw [hdashes]; rfl
      rw [if_pos hdashes, hvariable, argumentOutlines_succ, hoption]
      rcases ws with _ | ⟨v, ws⟩
      · rfl
      · rw [argumentOutlines_zero, scanOutlines, DefinitionScan.step, scanOutlines_idle]
    · rw [if_neg hdashes]
      by_cases hoption : wordKind w.text = .option
      · rw [if_pos hoption, setTarget?_option hdashes hoption]
        cases hasks : asksOnly w.text with
        | true =>
          have hfirst : wordOutlines .argument (w :: ws) =
              .node .option (some .argument) w.text [] :: wordOutlines .argument ws := by
            rw [← hoption]
            rfl
          rw [if_pos rfl, if_pos rfl, scanOutlines_idle, argumentOutlines_none, hfirst]
        | false =>
          rw [if_neg Bool.false_ne_true, if_neg Bool.false_ne_true, argumentOutlines_succ, ih,
            hoption]
      · rw [if_neg hoption, setTarget?_operand hdashes hoption, argumentOutlines_zero,
          scanOutlines_idle]

lemma scanOutlines_ofCommand (c : Call) :
    scanOutlines (.ofCommand c.name.text) c.args = argumentOutlines c.target? c.args := by
  rw [DefinitionScan.ofCommand, Call.target?]
  by_cases hset : c.name.text = "set".toList
  · rw [if_pos hset, if_pos (beq_iff_eq.2 hset), scanOutlines_searching]
  · rw [if_neg hset, if_neg (mt beq_iff_eq.1 hset), scanOutlines_idle, argumentOutlines_none]

/-! ## Commands -/

/-- The symbols that may stand behind a construct. -/
def EndsConstruct (x : Symbol) : Prop := x = .newline ∨ x.isConnector = true

/-- The symbols that may stand behind a command. -/
def EndsCall (x : Symbol) : Prop := x = .pipe ∨ EndsConstruct x

lemma scan_named (scan : DefinitionScan) (w : Text) :
    (scan.step w).1.isNamed = true ∧ (scan.step w).1 ≠ .error := by
  unfold DefinitionScan.step
  split <;> first | exact wordKind_named _ | exact ⟨rfl, NodeKind.noConfusion⟩

lemma read_arguments (staged : Bool) : ∀ (ws : List Word) (scan : DefinitionScan)
    {xs : List Placed} (f : Frame) (below : List Frame), xs.map Placed.lexeme = ws.map .word →
      f.expect = .arguments staged scan →
        ∃ ps scan', Shows ps xs (scanOutlines scan ws) ∧
          Stack.read ⟨f, below⟩ xs = ⟨f.extend ps (.arguments staged scan'), below⟩
  | [], scan, xs, f, below, hxs, he => by
    obtain rfl := List.map_eq_nil_iff.1 hxs
    exact ⟨[], scan, .nil, by rw [← he]; rfl⟩
  | w :: ws, scan, xs, f, below, hxs, he => by
    obtain ⟨span, xs, rfl, htail⟩ := exists_placed hxs
    have hfirst : Stack.step ⟨f, below⟩ (Placed.terminal ⟨.word w, span⟩) =
        ⟨f.extend [.leaf (scan.step w.text).1 (some .argument) span]
          (.arguments staged (scan.step w.text).2), below⟩ := Stack.step_take (.argument he rfl)
    obtain ⟨ps, scan', hps, hread⟩ := read_arguments staged ws (scan.step w.text).2
      (f.extend [.leaf (scan.step w.text).1 (some .argument) span]
        (.arguments staged (scan.step w.text).2)) below htail rfl
    obtain ⟨hnamed, herror⟩ := scan_named scan w.text
    refine ⟨.leaf (scan.step w.text).1 (some .argument) span :: ps, scan',
      .word (x := ⟨.word w, span⟩) hnamed herror hps, ?_⟩
    rw [Stack.read_cons, hfirst, hread, Frame.extend_extend]
    rfl

lemma read_call (c : Call) {xs : List Placed} (hxs : xs.map Placed.lexeme = c.args.map .word)
    (span : Span) (field : Option Field) (staged : Bool) (below : List Frame) :
    ∃ ps scan, (∀ field', Shows [.node .command field' ps] (⟨.word c.name.toWord, span⟩ :: xs)
        [c.outline field']) ∧
      Stack.read
        ⟨Frame.command field staged (Placed.terminal ⟨.word c.name.toWord, span⟩) c.name.text,
          below⟩ xs = ⟨⟨.command, field, ps.reverse, .arguments staged scan⟩, below⟩ := by
  obtain ⟨ps, scan, hps, hread⟩ := read_arguments staged c.args (.ofCommand c.name.text)
    (Frame.command field staged (Placed.terminal ⟨.word c.name.toWord, span⟩) c.name.text) below
    hxs rfl
  refine ⟨.leaf .word (some .name) span :: ps, scan, fun field' => ?_, ?_⟩
  · have hname : Shows (.leaf .word (some .name) span :: ps) (⟨.word c.name.toWord, span⟩ :: xs)
        (.node .word (some .name) c.name.text [] :: argumentOutlines c.target? c.args) := by
      rw [← scanOutlines_ofCommand]
      exact .word (x := ⟨.word c.name.toWord, span⟩) rfl (by decide) hps
    refine .single ?_ rfl (by decide) hname (List.cons_ne_nil _ _)
    rw [List.map_cons, hxs]
    rfl
  · rw [hread]
    simp [Frame.extend, Frame.command, Frame.opened, Placed.terminal]

/-! ## Pipelines -/

/-- A node in which words or bars may come is complete before the end of a construct. -/
lemma EndsConstruct.accept_eq_none {f : Frame} (hf : f.expect = .nothing ∨ f.expect = .finalWords ∨
    f.expect = .bar ∨ ∃ staged scan, f.expect = .arguments staged scan) {t : Terminal}
    (ht : EndsConstruct t.symbol) : f.accept t = none := by
  have hsymbol : t.symbol = .newline ∨ t.symbol = .andAnd ∨ t.symbol = .orOr := by
    obtain ht | ht := ht
    · exact .inl ht
    · cases hs : t.symbol <;> simp [hs, Symbol.isConnector] at ht ⊢
  obtain hs | hs | hs := hsymbol <;> obtain he | he | he | ⟨staged, scan, he⟩ := hf <;>
    simp [Frame.accept, he, hs]

lemma read_stage (c : Call) {xs : List Placed} (hxs : xs.map Placed.lexeme = c.lexemes) {g : Frame}
    (hg : g.expect = .stage) (below : List Frame) :
    ∃ p, Shows [p] xs [c.outline none] ∧
      Stack.Rests EndsCall (Stack.read ⟨g, below⟩ xs) (g.extend [p] .bar) below := by
  obtain ⟨span, xs, rfl, htail⟩ := exists_placed hxs
  have hfirst : Stack.step ⟨g, below⟩ (Placed.terminal ⟨.word c.name.toWord, span⟩) =
      ⟨.command none true (Placed.terminal ⟨.word c.name.toWord, span⟩) c.name.text,
        g.extend [] .bar :: below⟩ :=
    Stack.step_of_rule (.staged hg (Symbol.starter?_eq_some.2 ⟨rfl, c.name.ofWord?_eq_none⟩))
  obtain ⟨ps, scan, hps, hread⟩ := read_call c htail span none true (g.extend [] .bar :: below)
  refine ⟨.node .command none ps, hps none, ?_⟩
  have hrests : Stack.Rests EndsCall
      ⟨⟨.command, none, ps.reverse, .arguments true scan⟩, g.extend [] .bar :: below⟩
      ((g.extend [] .bar).add (.node .command none ps)) below := by
    have hpop := (Stack.rests_self EndsCall ⟨.command, none, ps.reverse, .arguments true scan⟩
      (g.extend [] .bar :: below)).pop fun t ht => by
        obtain ht | ht := ht
        · simp [Frame.accept, ht]
        · exact ht.accept_eq_none (.inr (.inr (.inr ⟨true, scan, rfl⟩)))
    rwa [Frame.phrase, List.reverse_reverse] at hpop
  rw [Stack.read_cons, hfirst]
  rw [Frame.extend_add, List.nil_append] at hrests
  exact hread ▸ hrests

lemma read_stages : ∀ (cs : List Call) {xs : List Placed} {s : Stack} {g : Frame}
    {below : List Frame}, xs.map Placed.lexeme = stages cs → Stack.Rests EndsCall s g below →
      g.expect = .bar → ∃ ps, Shows ps xs (cs.map (Call.outline none)) ∧
        Stack.Rests EndsCall (s.read xs) (g.extend ps .bar) below
  | [], xs, s, g, below, hxs, hs, hg => by
    obtain rfl := List.map_eq_nil_iff.1 hxs
    refine ⟨[], .nil, ?_⟩
    rw [← hg, Frame.extend_nil]
    exact hs
  | c :: cs, xs, s, g, below, hxs, hs, hg => by
    obtain ⟨span, xs, rfl, htail⟩ := exists_placed hxs
    obtain ⟨xs₁, xs₂, rfl, hxs₁, hxs₂⟩ := List.map_eq_append_iff.1 htail
    have hbar : s.step (Placed.terminal ⟨.bar, span⟩) =
        ⟨g.extend [.leaf .operator none span] .stage, below⟩ :=
      hs.take (.inl rfl) (.bar (.inr hg) rfl)
    obtain ⟨p, hp, hread⟩ := read_stage c hxs₁ (g := g.extend [.leaf .operator none span] .stage)
      rfl below
    obtain ⟨ps, hps, hrests⟩ := read_stages cs hxs₂ hread rfl
    refine ⟨.leaf .operator none span :: p :: ps, ?_, ?_⟩
    · exact .mark (x := ⟨.bar, span⟩) rfl (hp.append hps)
    · rw [Stack.read_cons, hbar, Stack.read_append]
      simpa [Placed.terminal] using hrests

/-! ## Where constructs begin -/

/-- A word that may begin a construct, no conjunction apart, begins one in the node. -/
def Begins (s : Stack) (field : Option Field) (outer : Frame) (below : List Frame) : Prop :=
  ∀ (t : Terminal) (w : Text), t.symbol.starter? = some w → isConjunction w = false →
    s.step t = ⟨.construct field t w, outer :: below⟩

/-- The same holds of conjunctions. -/
def Starts (s : Stack) (field : Option Field) (outer : Frame) (below : List Frame) : Prop :=
  ∀ (t : Terminal) (w : Text), t.symbol.starter? = some w →
    s.step t = ⟨.construct field t w, outer :: below⟩

variable {s : Stack} {field : Option Field} {outer : Frame} {below : List Frame}

lemma Starts.begins (h : Starts s field outer below) : Begins s field outer below :=
  fun t w ht _ => h t w ht

lemma starts_statements {f : Frame} {holder : Holder} {joinable : Bool}
    (he : f.expect = .statements holder joinable) (below : List Frame) :
    Starts ⟨f, below⟩ none (f.extend [] (.statements holder true)) below := by
  intro t w ht
  have hlists : f.Lists t holder joinable := by rw [Frame.Lists, he]; rfl
  exact Stack.step_of_rule (.begin hlists ht)

lemma starts_condition {f : Frame} {holder : Holder} (he : f.expect = .condition holder)
    (below : List Frame) :
    Starts ⟨f, below⟩ (some .condition) (f.extend [] (.conditionRest holder)) below := by
  intro t w ht
  exact Stack.step_of_rule (.condition he ht)

lemma starts_joined {f : Frame} (he : f.expect = .joined) (below : List Frame) :
    Starts ⟨f, below⟩ none (f.extend [] .nothing) below := by
  intro t w ht
  exact Stack.step_of_rule (.joined he ht)

lemma begins_conjunctions {f : Frame} (he : f.expect = .conjunctions) (below : List Frame) :
    Begins ⟨f, below⟩ none (f.extend [] .nothing) below := by
  intro t w ht hw
  exact Stack.step_of_rule (.conjoined he ht hw)

lemma read_pipeline (first : Call) (others : List Call) {xs : List Placed}
    (hxs : xs.map Placed.lexeme = (Construct.pipeline first others).lexemes)
    (hs : Begins s field outer below) :
    ∃ p, Shows [p] xs [(Construct.pipeline first others).outline field] ∧
      Stack.Rests EndsConstruct (s.read xs) (outer.add p) below := by
  have hprint := hxs
  obtain ⟨span, xs, rfl, htail⟩ := exists_placed hxs
  obtain ⟨xs₁, xs₂, rfl, hxs₁, hxs₂⟩ := List.map_eq_append_iff.1 htail
  have hname := hs (Placed.terminal ⟨.word first.name.toWord, span⟩) first.name.text
    (Symbol.starter?_eq_some.2 ⟨rfl, first.name.ofWord?_eq_none⟩) first.name.isConjunction_eq_false
  have hconstruct : Frame.construct field (Placed.terminal ⟨.word first.name.toWord, span⟩)
      first.name.text =
      .command field false (Placed.terminal ⟨.word first.name.toWord, span⟩) first.name.text := by
    simp only [Frame.construct, first.name.ofOpener?_eq_none, first.name.isReturn_eq_false,
      first.name.isConjunction_eq_false, Bool.false_eq_true, if_false]
  rw [hconstruct] at hname
  -- the first word opens a command, which takes the arguments
  obtain ⟨ps, scan, hps, hread⟩ := read_call first hxs₁ span field false (outer :: below)
  rw [Stack.read_cons, hname, Stack.read_append, hread]
  have hcommand := Stack.rests_self EndsConstruct
    ⟨.command, field, ps.reverse, .arguments false scan⟩ (outer :: below)
  rcases others with _ | ⟨second, others⟩
  · obtain rfl := List.map_eq_nil_iff.1 hxs₂
    have hrests := hcommand.pop fun t ht =>
      ht.accept_eq_none (.inr (.inr (.inr ⟨false, scan, rfl⟩)))
    rw [Frame.phrase, List.reverse_reverse] at hrests
    refine ⟨.node .command field ps, ?_, hrests⟩
    rw [List.append_nil]
    exact hps field
  · obtain ⟨span', xs₂, rfl, hothers⟩ := exists_placed hxs₂
    obtain ⟨ys, zs, rfl, hys, hzs⟩ := List.map_eq_append_iff.1 hothers
    -- the first bar puts the command into a pipeline in its place
    have hbar : Stack.step ⟨⟨.command, field, ps.reverse, .arguments false scan⟩, outer :: below⟩
        (Placed.terminal ⟨.bar, span'⟩) = ⟨Frame.piped
          ⟨.command, field, ps.reverse, .arguments false scan⟩ (Placed.terminal ⟨.bar, span'⟩),
          outer :: below⟩ := Stack.step_of_rule (.pipe rfl rfl)
    obtain ⟨p, hp, hstage⟩ := read_stage second hys (g := Frame.piped
      ⟨.command, field, ps.reverse, .arguments false scan⟩ (Placed.terminal ⟨.bar, span'⟩)) rfl
      (outer :: below)
    obtain ⟨ps', hps', hrests⟩ := read_stages others hzs hstage rfl
    have hdone := (hrests.mono fun _ => .inr).pop fun t ht =>
      ht.accept_eq_none (.inr (.inr (.inl rfl)))
    have hphrase : ((Frame.piped ⟨.command, field, ps.reverse, .arguments false scan⟩
        (Placed.terminal ⟨.bar, span'⟩)).extend ([p] ++ ps') .bar).phrase =
        .node .pipeline field
          (.node .command none ps :: .leaf .operator none span' :: p :: ps') := by
      simp [Frame.phrase_extend, Frame.piped, Placed.terminal]
    rw [Frame.extend_extend, hphrase] at hdone
    refine ⟨.node .pipeline field
      (.node .command none ps :: .leaf .operator none span' :: p :: ps'), ?_, ?_⟩
    · have hrest : Shows (.leaf .operator none span' :: p :: ps') (⟨.bar, span'⟩ :: (ys ++ zs))
          (second.outline none :: others.map (Call.outline none)) :=
        .mark (x := ⟨.bar, span'⟩) rfl (hp.append hps')
      exact .single hprint rfl (by decide) ((hps none).append hrest) (List.cons_ne_nil _ _)
    · rw [Stack.read_cons, hbar, Stack.read_append]
      exact hdone

end Program

end FishScript
