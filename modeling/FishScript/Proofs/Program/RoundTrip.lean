/-
# Parsing inverts printing

The tree of a printed program shows the outline of the program and no error
(`parse_print`). For each sort of a program's parts there is a predicate that says what a run of
the parser over the printed part does, and the proof that every part satisfies it follows the
syntax.
-/
import Mathlib
import FishScript.Proofs.Program.Limit
import FishScript.Proofs.Program.Reading

namespace FishScript

namespace Program

variable {P : Symbol → Prop} {s : Stack} {f F outer : Frame} {field : Option Field}
  {below : List Frame} {holder : Holder} {xs : List Placed}

/-! ## Keywords and line breaks -/

/-- The word `end`. -/
def IsEnd (x : Symbol) : Prop := x = (Lexeme.keyword (.closing .blockEnd)).symbol

/-- A closing word that ends a list of statements of a holder, but not the block. -/
def Leaves (holder : Holder) (x : Symbol) : Prop :=
  ∃ c, x = (Lexeme.keyword (.closing c)).symbol ∧ holder.role c = .leaves

lemma closing?_keyword (c : Closing) :
    (Lexeme.keyword (.closing c)).symbol.closing? = some c := by
  cases c <;> decide +kernel

lemma step_newline (h : Stack.Rests P s f below) (hP : P .newline) {joinable : Bool}
    (hl : f.expect.listed? .newline = some (holder, joinable)) (span : Span) :
    s.step (Placed.terminal ⟨.newline, span⟩) =
      ⟨f.extend [.leaf .terminator none span] (.statements holder false), below⟩ :=
  h.take hP (.terminator hl (.inr rfl))

/-- A clause is complete before a word that is not for it. -/
lemma Leaves.accept_eq_none {joinable : Bool} (he : f.expect = .statements holder joinable)
    {t : Terminal} (ht : Leaves holder t.symbol) : f.accept t = none := by
  obtain ⟨c, hc, hr⟩ := ht
  have hw := closing?_keyword c
  rw [Frame.accept_of_lists (h := holder) (j := joinable) (by rw [Frame.Lists, he]; rfl),
    Frame.inStatements, hc]
  have hw' : Closing.ofWord? (Keyword.closing c).word.text = some c := hw
  simp only [Lexeme.keyword, Lexeme.symbol, hw', hr]

/-! ## Blocks -/

lemma step_opener (hs : Begins s field outer below) (b : Block) (span : Span) :
    s.step (Placed.terminal ⟨.keyword (.opener b), span⟩) =
      ⟨⟨.error, field, [.leaf .keyword none span], b.header⟩, outer :: below⟩ := by
  have hstarter : (Lexeme.keyword (.opener b)).symbol.starter? = some b.opener.toList := by
    cases b <;> decide +kernel
  have hplain : isConjunction b.opener.toList = false := by cases b <;> decide +kernel
  have hopener : Block.ofOpener? b.opener.toList = some b := by cases b <;> decide +kernel
  rw [hs _ _ hstarter hplain, Frame.construct, hopener]
  rfl

lemma rests_end (h : Stack.Rests IsEnd s F (outer :: below)) {b : Block} {joinable : Bool}
    (he : F.expect = .statements (.block b) joinable) (span : Span) :
    Stack.Rests EndsConstruct (s.step (Placed.terminal ⟨.keyword (.closing .blockEnd), span⟩))
      (outer.add (.node b.kind F.field
        (F.phrases.reverse ++ [.leaf .keyword none span]))) below := by
  have hrole : (Holder.block b).role .blockEnd = .closes b := by cases b <;> rfl
  have hclose := h.step (t := Placed.terminal ⟨.keyword (.closing .blockEnd), span⟩) rfl
    (.close (j := joinable) (by rw [Frame.Lists, he]; rfl) (closing?_keyword .blockEnd) hrole)
  rw [hclose]
  have hdone := (Stack.rests_self EndsConstruct
    ({ F with kind := b.kind }.extend [.leaf .keyword none span] .finalWords)
    (outer :: below)).pop fun t ht => ht.accept_eq_none (.inr (.inl rfl))
  rw [Frame.phrase_extend] at hdone
  exact hdone

/-- What is read between the words that open and close a block makes the block. -/
lemma read_block (b : Block) {ls : List Lexeme} {os : List Outline}
    (hxs : xs.map Placed.lexeme = enclose b ls) (hs : Begins s field outer below)
    (hinner : ∀ (ys : List Placed) (F : Frame), ys.map Placed.lexeme = ls → F.expect = b.header →
      ∃ ps, Shows ps ys os ∧ Stack.Rests IsEnd (Stack.read ⟨F, outer :: below⟩ ys)
        (F.extend ps (.statements (.block b) false)) (outer :: below)) :
    ∃ p, Shows [p] xs [.node b.kind field (spell (enclose b ls)) os] ∧
      Stack.Rests EndsConstruct (s.read xs) (outer.add p) below := by
  have hprint := hxs
  obtain ⟨span, xs, rfl, htail⟩ := exists_placed hxs
  obtain ⟨ys, zs, rfl, hys, hzs⟩ := List.map_eq_append_iff.1 htail
  obtain ⟨span', zs, rfl, hnil⟩ := exists_placed hzs
  obtain rfl := List.map_eq_nil_iff.1 hnil
  obtain ⟨ps, hps, hrests⟩ := hinner ys
    ⟨.error, field, [.leaf .keyword none span], b.header⟩ hys rfl
  have hend := rests_end hrests rfl span'
  refine ⟨.node b.kind field (.leaf .keyword none span :: (ps ++ [.leaf .keyword none span'])),
    ?_, ?_⟩
  · have hclose : Shows [.leaf .keyword none span'] [⟨.keyword (.closing .blockEnd), span'⟩] [] :=
      .mark (x := ⟨.keyword (.closing .blockEnd), span'⟩) rfl .nil
    have hall : Shows (.leaf .keyword none span :: (ps ++ [.leaf .keyword none span']))
        (⟨.keyword (.opener b), span⟩ :: (ys ++ [⟨.keyword (.closing .blockEnd), span'⟩]))
        (os ++ []) :=
      .mark (x := ⟨.keyword (.opener b), span⟩) rfl (hps.append hclose)
    rw [List.append_nil] at hall
    exact .single hprint (by cases b <;> rfl) (by cases b <;> decide) hall (List.cons_ne_nil _ _)
  · have hphrases : (Frame.extend ⟨.error, field, [.leaf .keyword none span], b.header⟩ ps
        (.statements (.block b) false)).phrases.reverse ++ [.leaf .keyword none span'] =
        .leaf .keyword none span :: (ps ++ [.leaf .keyword none span']) := by
      simp [Frame.extend]
    rw [hphrases] at hend
    rw [Stack.read_cons, step_opener hs, Stack.read_append]
    exact hend

/-! ## What is read of each part -/

/-- In the node a connector joins the next statement, with the role. -/
def Joins (e : Expect) (field : Option Field) : Prop :=
  ∀ (f : Frame) (t : Terminal), f.expect = e → t.symbol.isConnector = true →
    f.Rule t (f.enter e (.joining field t))

/-- A construct becomes one phrase of the node in which it begins. -/
def Construct.Reads (c : Construct) : Prop :=
  ∀ (xs : List Placed) (s : Stack) (field : Option Field) (outer : Frame) (below : List Frame),
    xs.map Placed.lexeme = c.lexemes → Begins s field outer below →
      ∃ p, Shows [p] xs [c.outline field] ∧
        Stack.Rests EndsConstruct (s.read xs) (outer.add p) below

/-- So does a statement. -/
def Statement.Reads (st : Statement) : Prop :=
  ∀ (xs : List Placed) (s : Stack) (field : Option Field) (outer : Frame) (below : List Frame),
    xs.map Placed.lexeme = st.lexemes → Starts s field outer below →
      ∃ p, Shows [p] xs [st.outline field] ∧
        Stack.Rests EndsConstruct (s.read xs) (outer.add p) below

/-- The statements of a chain become phrases of the node in which the chain begins. -/
def Chain.Reads (c : Chain) : Prop :=
  ∀ (xs : List Placed) (s : Stack) (field : Option Field) (f : Frame) (e : Expect)
    (below : List Frame), xs.map Placed.lexeme = c.lexemes →
      Starts s field (f.extend [] e) below → Joins e field →
        ∃ ps, Shows ps xs (c.outlines field) ∧
          Stack.Rests EndsConstruct (s.read xs) (f.extend ps e) below

/-- So do joined statements. -/
def Links.Reads (ls : Links) : Prop :=
  ∀ (xs : List Placed) (s : Stack) (field : Option Field) (f : Frame) (e : Expect)
    (below : List Frame), xs.map Placed.lexeme = ls.lexemes →
      Stack.Rests EndsConstruct s (f.extend [] e) below → Joins e field →
        ∃ ps, Shows ps xs (ls.outlines field) ∧
          Stack.Rests EndsConstruct (s.read xs) (f.extend ps e) below

/-- The statements of a body become phrases of the node that holds statements. -/
def Body.Reads (b : Body) : Prop :=
  ∀ (xs : List Placed) (f : Frame) (holder : Holder) (below : List Frame),
    xs.map Placed.lexeme = b.lexemes →
      ∃ ps, Shows ps xs b.outlines ∧
        Stack.read ⟨f.extend [] (.statements holder false), below⟩ xs =
          ⟨f.extend ps (.statements holder false), below⟩

/-- The branches become phrases of the conditional. -/
def Branches.Reads (b : Branches) : Prop :=
  ∀ (xs : List Placed) (s : Stack) (f : Frame) (below : List Frame),
    xs.map Placed.lexeme = b.lexemes →
      Stack.Rests (Leaves .elseIf) s (f.extend [] (.statements (.block .ifBlock) false)) below →
        ∃ ps, Shows ps xs b.outlines ∧
          Stack.Rests IsEnd (s.read xs) (f.extend ps (.statements (.block .ifBlock) false)) below

/-- The cases become phrases of the choice. -/
def Cases.Reads (c : Cases) : Prop :=
  ∀ (xs : List Placed) (s : Stack) (f : Frame) (below : List Frame),
    xs.map Placed.lexeme = c.lexemes →
      Stack.Rests (Leaves .caseClause) s (f.extend [] (.statements (.block .switchBlock) false))
        below →
        ∃ ps, Shows ps xs c.outlines ∧
          Stack.Rests IsEnd (s.read xs) (f.extend ps (.statements (.block .switchBlock) false))
            below

lemma joins_statements (holder : Holder) : Joins (.statements holder true) none := by
  intro f t he ht
  exact .join (by rw [Frame.Lists, he]; rfl) ht

lemma joins_condition (holder : Holder) : Joins (.conditionRest holder) (some .condition) :=
  fun _ _ he ht => .conditionJoin he ht

lemma leaves_of_isEnd {x : Symbol} (hholder : holder.role .blockEnd = .leaves) (h : IsEnd x) :
    Leaves holder x := ⟨.blockEnd, h, hholder⟩

/-! ## Statements and chains -/

/-- A node that depends on the construct before it is complete behind the construct in it. -/
lemma rests_conditional {leaf p : Phrase} {e : Expect}
    (h : Stack.Rests EndsConstruct s
      ((Frame.extend ⟨.conditionalExecution, field, [leaf], e⟩ [] .nothing).add p)
      (outer :: below)) :
    Stack.Rests EndsConstruct s (outer.add (.node .conditionalExecution field [leaf, p])) below :=
  h.pop fun _ ht => ht.accept_eq_none (.inl rfl)

lemma Construct.Reads.plain {c : Construct} (hc : c.Reads) : (Statement.plain c).Reads :=
  fun xs s field outer below hxs hs => hc xs s field outer below hxs hs.begins

lemma Construct.Reads.prefixed {c : Construct} (hc : c.Reads) (conjunction : Conjunction) :
    (Statement.prefixed conjunction c).Reads := by
  intro xs s field outer below hxs hs
  have hprint := hxs
  obtain ⟨span, xs, rfl, htail⟩ := exists_placed hxs
  have hstarter : (Lexeme.keyword (.conjunction conjunction)).symbol.starter? =
      some (Keyword.conjunction conjunction).text := by
    cases conjunction <;> decide +kernel
  have hconstruct : Frame.construct field
      (Placed.terminal ⟨.keyword (.conjunction conjunction), span⟩)
      (Keyword.conjunction conjunction).text =
      ⟨.conditionalExecution, field, [.leaf .keyword none span], .conjunctions⟩ := by
    cases conjunction <;> rfl
  have hfirst := hs (Placed.terminal ⟨.keyword (.conjunction conjunction), span⟩) _ hstarter
  rw [hconstruct] at hfirst
  obtain ⟨p, hp, hrests⟩ := hc xs
    ⟨⟨.conditionalExecution, field, [.leaf .keyword none span], .conjunctions⟩, outer :: below⟩
    none _ (outer :: below) htail (begins_conjunctions rfl _)
  refine ⟨.node .conditionalExecution field [.leaf .keyword none span, p], ?_, ?_⟩
  · exact .single hprint rfl (by decide)
      (.mark (x := ⟨.keyword (.conjunction conjunction), span⟩) rfl hp) (List.cons_ne_nil _ _)
  · rw [Stack.read_cons, hfirst]
    exact rests_conditional hrests

lemma Links.Reads.nil : Links.nil.Reads := by
  intro xs s field f e below hxs hs hjoins
  obtain rfl := List.map_eq_nil_iff.1 hxs
  exact ⟨[], .nil, hs⟩

lemma Links.Reads.cons {st : Statement} {rest : Links} (hst : st.Reads) (hrest : rest.Reads)
    (connector : Connector) : (Links.cons connector st rest).Reads := by
  intro xs s field f e below hxs hs hjoins
  obtain ⟨span, xs, rfl, htail⟩ := exists_placed hxs
  obtain ⟨ys, zs, rfl, hys, hzs⟩ := List.map_eq_append_iff.1 htail
  have hconnector : (Lexeme.connector connector).symbol.isConnector = true := by
    cases connector <;> rfl
  have hfirst := hs.step (t := Placed.terminal ⟨.connector connector, span⟩) (.inr hconnector)
    (hjoins (f.extend [] e) _ rfl hconnector)
  obtain ⟨p, hp, hrests⟩ := hst ys
    ⟨⟨.conditionalExecution, field, [.leaf .operator none span], .joined⟩, f.extend [] e :: below⟩
    none _ (f.extend [] e :: below) hys (starts_joined rfl _)
  have hdone := rests_conditional hrests
  rw [Frame.extend_add, List.nil_append] at hdone
  obtain ⟨ps, hps, hall⟩ := hrest zs _ field
    (f.extend [.node .conditionalExecution field [.leaf .operator none span, p]] e) e below hzs
    (by rwa [Frame.extend_extend, List.append_nil]) hjoins
  refine ⟨.node .conditionalExecution field [.leaf .operator none span, p] :: ps, ?_, ?_⟩
  · have hnode : Shows [.node .conditionalExecution field [.leaf .operator none span, p]]
        (⟨.connector connector, span⟩ :: ys)
        [.node .conditionalExecution field (spell (.connector connector :: st.lexemes))
          [st.outline none]] :=
      .single (by rw [List.map_cons, hys]) rfl (by decide)
        (.mark (x := ⟨.connector connector, span⟩) rfl hp) (List.cons_ne_nil _ _)
    exact hnode.append hps
  · rw [Frame.extend_extend] at hall
    rw [Stack.read_cons, Stack.read_append, hfirst]
    exact hall

lemma Statement.Reads.chain {first : Statement} {links : Links} (hfirst : first.Reads)
    (hlinks : links.Reads) : (Chain.of first links).Reads := by
  intro xs s field f e below hxs hs hjoins
  obtain ⟨ys, zs, rfl, hys, hzs⟩ := List.map_eq_append_iff.1 hxs
  obtain ⟨p, hp, hrests⟩ := hfirst ys s field _ below hys hs
  rw [Frame.extend_add, List.nil_append] at hrests
  obtain ⟨ps, hps, hall⟩ := hlinks zs _ field (f.extend [p] e) e below hzs
    (by rwa [Frame.extend_extend, List.append_nil]) hjoins
  refine ⟨p :: ps, hp.append hps, ?_⟩
  rw [Frame.extend_extend] at hall
  rw [Stack.read_append]
  exact hall

/-! ## Bodies -/

lemma Body.Reads.nil : Body.nil.Reads := by
  intro xs f holder below hxs
  obtain rfl := List.map_eq_nil_iff.1 hxs
  exact ⟨[], .nil, rfl⟩

lemma Body.Reads.cons {chain : Chain} {rest : Body} (hchain : chain.Reads) (hrest : rest.Reads) :
    (Body.cons chain rest).Reads := by
  intro xs f holder below hxs
  obtain ⟨ys, zs, rfl, hys, hzs⟩ := List.map_eq_append_iff.1 hxs
  obtain ⟨span, zs, rfl, htail⟩ := exists_placed hzs
  obtain ⟨ps, hps, hrests⟩ := hchain ys ⟨f.extend [] (.statements holder false), below⟩ none f
    (.statements holder true) below hys
    (by simpa using starts_statements (f := f.extend [] (.statements holder false)) rfl below)
    (joins_statements holder)
  have hnewline := step_newline hrests (.inl rfl) rfl span
  obtain ⟨qs, hqs, hread⟩ := hrest zs (f.extend (ps ++ [.leaf .terminator none span])
    (.statements holder false)) holder below htail
  rw [Frame.extend_extend] at hnewline
  rw [Frame.extend_extend, Frame.extend_extend, List.append_nil] at hread
  refine ⟨ps ++ .leaf .terminator none span :: qs,
    hps.append (.mark (x := ⟨.newline, span⟩) rfl hqs), ?_⟩
  rw [Stack.read_append, Stack.read_cons, hnewline, hread, List.append_assoc]
  rfl

lemma Body.Reads.inside {body : Body} (hbody : body.Reads) {joinable : Bool}
    (hxs : xs.map Placed.lexeme = .newline :: body.lexemes) (hs : Stack.Rests P s f below)
    (hP : P .newline) (hl : f.expect.listed? .newline = some (holder, joinable)) :
    ∃ ps, Shows ps xs body.outlines ∧
      s.read xs = ⟨f.extend ps (.statements holder false), below⟩ := by
  obtain ⟨span, xs, rfl, htail⟩ := exists_placed hxs
  obtain ⟨ps, hps, hread⟩ := hbody xs (f.extend [.leaf .terminator none span]
    (.statements holder false)) holder below htail
  rw [Frame.extend_extend, List.append_nil, Frame.extend_extend] at hread
  refine ⟨.leaf .terminator none span :: ps, .mark (x := ⟨.newline, span⟩) rfl hps, ?_⟩
  rw [Stack.read_cons, step_newline hs hP hl, hread]
  rfl

lemma Chain.Reads.guards {condition : Chain} {body : Body} (hcondition : condition.Reads)
    (hbody : body.Reads)
    (hxs : xs.map Placed.lexeme = condition.lexemes ++ .newline :: body.lexemes)
    (he : f.expect = .condition holder) (below : List Frame) :
    ∃ ps, Shows ps xs (condition.outlines (some .condition) ++ body.outlines) ∧
      Stack.read ⟨f, below⟩ xs = ⟨f.extend ps (.statements holder false), below⟩ := by
  obtain ⟨ys, zs, rfl, hys, hzs⟩ := List.map_eq_append_iff.1 hxs
  obtain ⟨ps, hps, hrests⟩ := hcondition ys ⟨f, below⟩ (some .condition) f (.conditionRest holder)
    below hys (starts_condition he below) (joins_condition holder)
  obtain ⟨qs, hqs, hread⟩ := hbody.inside hzs hrests (.inl rfl) rfl
  refine ⟨ps ++ qs, hps.append hqs, ?_⟩
  rw [Stack.read_append, hread, Frame.extend_extend]

/-! ## Clauses -/

lemma rests_clause (holder : Holder) (f outer : Frame) (ps : List Phrase) (e : Expect)
    (below : List Frame) :
    Stack.Rests (Leaves holder) ⟨f.extend ps (.statements holder false), outer.extend [] e :: below⟩
      (outer.extend [.node f.kind f.field (f.phrases.reverse ++ ps)] e) below := by
  have hpop := (Stack.rests_self (Leaves holder) (f.extend ps (.statements holder false))
    (outer.extend [] e :: below)).pop fun t ht => ht.accept_eq_none rfl
  rwa [Frame.phrase_extend, Frame.extend_add, List.nil_append] at hpop

lemma step_clause {b : Block} {c : Closing} (hrole : (Holder.block b).role c = .beginsClause)
    (h : Stack.Rests P s (f.extend [] (.statements (.block b) false)) below)
    (hP : P (Lexeme.keyword (.closing c)).symbol) (span : Span) :
    s.step (Placed.terminal ⟨.keyword (.closing c), span⟩) =
      ⟨.clause c (Placed.terminal ⟨.keyword (.closing c), span⟩),
        f.extend [] (.statements (.block b) false) :: below⟩ :=
  h.step (t := Placed.terminal ⟨.keyword (.closing c), span⟩) hP
    (.clause (j := false) rfl (closing?_keyword c) hrole)

lemma Branches.Reads.nil : Branches.nil.Reads := by
  intro xs s f below hxs hs
  obtain rfl := List.map_eq_nil_iff.1 hxs
  exact ⟨[], .nil, hs.mono fun _ => leaves_of_isEnd rfl⟩

lemma Body.Reads.otherwise {body : Body} (hbody : body.Reads) :
    (Branches.otherwise body).Reads := by
  intro xs s f below hxs hs
  have hprint := hxs
  obtain ⟨span, xs, rfl, htail⟩ := exists_placed hxs
  have hfirst := step_clause rfl hs ⟨.elseBranch, rfl, rfl⟩ span
  obtain ⟨ps, hps, hread⟩ := hbody.inside htail
    (Stack.rests_self (fun _ => True)
      (.clause .elseBranch (Placed.terminal ⟨.keyword (.closing .elseBranch), span⟩))
      (f.extend [] (.statements (.block .ifBlock) false) :: below)) trivial rfl
  refine ⟨[.node .elseClause none (.leaf .keyword none span :: ps)], ?_, ?_⟩
  · exact .single hprint rfl (by decide)
      (.mark (x := ⟨.keyword (.closing .elseBranch), span⟩) rfl hps) (List.cons_ne_nil _ _)
  · rw [Stack.read_cons, hfirst, hread]
    exact (rests_clause .otherwise
      (.clause .elseBranch (Placed.terminal ⟨.keyword (.closing .elseBranch), span⟩)) f ps _
      below).mono fun _ => leaves_of_isEnd rfl

lemma step_elseIf (h : Stack.Rests (Leaves .elseIf) s
      (f.extend [] (.statements (.block .ifBlock) false)) below) (span span' : Span) :
    (s.step (Placed.terminal ⟨.keyword (.closing .elseBranch), span⟩)).step
        (Placed.terminal ⟨.keyword (.opener .ifBlock), span'⟩) =
      ⟨⟨.elseIfClause, none, [.leaf .keyword none span', .leaf .keyword none span],
        .condition .elseIf⟩, f.extend [] (.statements (.block .ifBlock) false) :: below⟩ := by
  rw [step_clause rfl h ⟨.elseBranch, rfl, rfl⟩ span]
  exact Stack.step_of_rule (t := Placed.terminal ⟨.keyword (.opener .ifBlock), span'⟩)
    (.elseIf rfl rfl)

lemma Branches.Reads.elseIf {condition : Chain} {body : Body} {rest : Branches}
    (hcondition : condition.Reads) (hbody : body.Reads) (hrest : rest.Reads) :
    (Branches.elseIf condition body rest).Reads := by
  intro xs s f below hxs hs
  obtain ⟨span, xs, rfl, htail⟩ := exists_placed hxs
  obtain ⟨span', xs, rfl, htail'⟩ := exists_placed htail
  have hassoc : condition.lexemes ++ .newline :: (body.lexemes ++ rest.lexemes) =
      (condition.lexemes ++ .newline :: body.lexemes) ++ rest.lexemes := by
    rw [List.append_assoc]
    rfl
  rw [hassoc] at htail'
  obtain ⟨ys, zs, rfl, hys, hzs⟩ := List.map_eq_append_iff.1 htail'
  obtain ⟨ps, hps, hread⟩ := hcondition.guards hbody hys (f := ⟨.elseIfClause, none,
    [.leaf .keyword none span', .leaf .keyword none span], .condition .elseIf⟩) rfl
    (f.extend [] (.statements (.block .ifBlock) false) :: below)
  have hclause := rests_clause .elseIf ⟨.elseIfClause, none,
    [.leaf .keyword none span', .leaf .keyword none span], .condition .elseIf⟩ f ps
    (.statements (.block .ifBlock) false) below
  obtain ⟨qs, hqs, hall⟩ := hrest zs _ (f.extend [.node .elseIfClause none
    (.leaf .keyword none span :: .leaf .keyword none span' :: ps)]
    (.statements (.block .ifBlock) false)) below hzs
    (by rw [Frame.extend_extend, List.append_nil]; exact hclause)
  refine ⟨.node .elseIfClause none (.leaf .keyword none span :: .leaf .keyword none span' :: ps) ::
    qs, ?_, ?_⟩
  · have hprint : (⟨.keyword (.closing .elseBranch), span⟩ ::
        ⟨.keyword (.opener .ifBlock), span'⟩ :: ys).map Placed.lexeme =
        (Branches.elseIf condition body .nil).lexemes := by
      rw [List.map_cons, List.map_cons, hys]
      simp [Branches.lexemes]
    have hwords : Shows (.leaf .keyword none span :: .leaf .keyword none span' :: ps)
        (⟨.keyword (.closing .elseBranch), span⟩ :: ⟨.keyword (.opener .ifBlock), span'⟩ :: ys)
        (condition.outlines (some .condition) ++ body.outlines) :=
      .mark (x := ⟨.keyword (.closing .elseBranch), span⟩) rfl
        (.mark (x := ⟨.keyword (.opener .ifBlock), span'⟩) rfl hps)
    exact (Shows.single hprint rfl (by decide) hwords (List.cons_ne_nil _ _)).append hqs
  · rw [Frame.extend_extend] at hall
    rw [Stack.read_cons, Stack.read_cons, step_elseIf hs, Stack.read_append, hread]
    exact hall

lemma Cases.Reads.nil : Cases.nil.Reads := by
  intro xs s f below hxs hs
  obtain rfl := List.map_eq_nil_iff.1 hxs
  exact ⟨[], .nil, hs.mono fun _ => leaves_of_isEnd rfl⟩

lemma Body.Reads.headed {body : Body} (hbody : body.Reads) {e : Expect} {role : Field}
    {ws : List Word} {joinable : Bool} (htakes : TakesWords e role)
    (hl : e.listed? .newline = some (holder, joinable)) (he : f.expect = e)
    (hxs : xs.map Placed.lexeme = ws.map .word ++ .newline :: body.lexemes)
    (below : List Frame) :
    ∃ ps, Shows ps xs (wordOutlines role ws ++ body.outlines) ∧
      Stack.read ⟨f, below⟩ xs = ⟨f.extend ps (.statements holder false), below⟩ := by
  obtain ⟨ys, zs, rfl, hys, hzs⟩ := List.map_eq_append_iff.1 hxs
  obtain ⟨ps, hps, hwords⟩ := read_words htakes ws f below hys he
  obtain ⟨qs, hqs, hread⟩ := hbody.inside hzs
    (Stack.rests_self (fun _ => True) (f.extend ps e) below) trivial hl
  refine ⟨ps ++ qs, hps.append hqs, ?_⟩
  rw [Stack.read_append, hwords, hread, Frame.extend_extend]

lemma Cases.Reads.cons {body : Body} {rest : Cases} (patterns : List Word) (hbody : body.Reads)
    (hrest : rest.Reads) : (Cases.cons patterns body rest).Reads := by
  intro xs s f below hxs hs
  obtain ⟨span, xs, rfl, htail⟩ := exists_placed hxs
  have hassoc : patterns.map Lexeme.word ++ .newline :: (body.lexemes ++ rest.lexemes) =
      (patterns.map Lexeme.word ++ .newline :: body.lexemes) ++ rest.lexemes := by
    rw [List.append_assoc]
    rfl
  rw [hassoc] at htail
  obtain ⟨ys, zs, rfl, hys, hzs⟩ := List.map_eq_append_iff.1 htail
  have hfirst := step_clause rfl hs ⟨.nextCase, rfl, rfl⟩ span
  obtain ⟨ps, hps, hread⟩ := hbody.headed (takesWords_header .caseClause) rfl
    (f := .clause .nextCase (Placed.terminal ⟨.keyword (.closing .nextCase), span⟩)) rfl hys
    (f.extend [] (.statements (.block .switchBlock) false) :: below)
  have hclause := rests_clause .caseClause
    (.clause .nextCase (Placed.terminal ⟨.keyword (.closing .nextCase), span⟩)) f ps
    (.statements (.block .switchBlock) false) below
  obtain ⟨qs, hqs, hall⟩ := hrest zs _ (f.extend [.node .caseClause none
    (.leaf .keyword none span :: ps)] (.statements (.block .switchBlock) false)) below hzs
    (by rw [Frame.extend_extend, List.append_nil]; exact hclause)
  refine ⟨.node .caseClause none (.leaf .keyword none span :: ps) :: qs, ?_, ?_⟩
  · have hprint : (⟨.keyword (.closing .nextCase), span⟩ :: ys).map Placed.lexeme =
        (Cases.cons patterns body .nil).lexemes := by
      rw [List.map_cons, hys]
      simp [Cases.lexemes]
    have hwords : Shows (.leaf .keyword none span :: ps)
        (⟨.keyword (.closing .nextCase), span⟩ :: ys)
        (wordOutlines .argument patterns ++ body.outlines) :=
      .mark (x := ⟨.keyword (.closing .nextCase), span⟩) rfl hps
    exact (Shows.single hprint rfl (by decide) hwords (List.cons_ne_nil _ _)).append hqs
  · rw [Frame.extend_extend] at hall
    rw [Stack.read_cons, hfirst, Stack.read_append, hread]
    exact hall

/-! ## Constructs -/

lemma Construct.Reads.pipeline (first : Call) (others : List Call) :
    (Construct.pipeline first others).Reads :=
  fun _ _ _ _ _ hxs hs => read_pipeline first others hxs hs

lemma Construct.Reads.returning (args : List Word) : (Construct.returning args).Reads := by
  intro xs s field outer below hxs hs
  have hprint := hxs
  obtain ⟨span, xs, rfl, htail⟩ := exists_placed hxs
  have hstarter : (Lexeme.keyword .returning).symbol.starter? = some Keyword.returning.text := by
    decide +kernel
  have hfirst := hs (Placed.terminal ⟨.keyword .returning, span⟩) _ hstarter (by decide +kernel)
  have hconstruct : Frame.construct field (Placed.terminal ⟨.keyword .returning, span⟩)
      Keyword.returning.text =
      ⟨.returnStatement, field, [.leaf .keyword none span], .finalWords⟩ := rfl
  rw [hconstruct] at hfirst
  obtain ⟨ps, hps, hread⟩ := read_words takesWords_final args
    ⟨.returnStatement, field, [.leaf .keyword none span], .finalWords⟩ (outer :: below) htail rfl
  have hdone := (Stack.rests_self EndsConstruct
    (Frame.extend ⟨.returnStatement, field, [.leaf .keyword none span], .finalWords⟩ ps .finalWords)
    (outer :: below)).pop fun t ht => ht.accept_eq_none (.inr (.inl rfl))
  refine ⟨.node .returnStatement field (.leaf .keyword none span :: ps), ?_, ?_⟩
  · exact .single hprint rfl (by decide) (.mark (x := ⟨.keyword .returning, span⟩) rfl hps)
      (List.cons_ne_nil _ _)
  · rw [Stack.read_cons, hfirst, hread]
    rwa [Frame.phrase_extend] at hdone

lemma Construct.Reads.ifBlock {condition : Chain} {body : Body} {branches : Branches}
    (hcondition : condition.Reads) (hbody : body.Reads) (hbranches : branches.Reads) :
    (Construct.ifBlock condition body branches).Reads := by
  intro xs s field outer below hxs hs
  rw [Construct.outline, ← List.append_assoc]
  refine read_block .ifBlock hxs hs fun us F hus hF => ?_
  have hassoc : condition.lexemes ++ .newline :: (body.lexemes ++ branches.lexemes) =
      (condition.lexemes ++ .newline :: body.lexemes) ++ branches.lexemes := by
    rw [List.append_assoc]
    rfl
  rw [hassoc] at hus
  obtain ⟨ys, zs, rfl, hys, hzs⟩ := List.map_eq_append_iff.1 hus
  obtain ⟨ps, hps, hread⟩ := hcondition.guards hbody hys hF (outer :: below)
  obtain ⟨qs, hqs, hrests⟩ := hbranches zs _
    (F.extend ps (.statements (.block .ifBlock) false)) (outer :: below) hzs
    (Stack.rests_self _ _ _)
  rw [Frame.extend_extend] at hrests
  rw [Frame.extend_extend, List.append_nil, ← hread, ← Stack.read_append] at hrests
  exact ⟨ps ++ qs, hps.append hqs, hrests⟩

lemma Construct.Reads.switchBlock {cases : Cases} (values : List Word) (hcases : cases.Reads) :
    (Construct.switchBlock values cases).Reads := by
  intro xs s field outer below hxs hs
  refine read_block .switchBlock hxs hs fun us F hus hF => ?_
  obtain ⟨ys, us, rfl, hys, htail⟩ := List.map_eq_append_iff.1 hus
  obtain ⟨span, zs, rfl, hzs⟩ := exists_placed htail
  obtain ⟨ps, hps, hwords⟩ := read_words (takesWords_header (.block .switchBlock)) values F
    (outer :: below) hys hF
  have hnewline := step_newline (Stack.rests_self (fun _ => True)
    (F.extend ps (.headerWords (.block .switchBlock))) (outer :: below)) trivial rfl span
  obtain ⟨qs, hqs, hrests⟩ := hcases zs _
    (F.extend (ps ++ [.leaf .terminator none span]) (.statements (.block .switchBlock) false))
    (outer :: below) hzs (Stack.rests_self _ _ _)
  rw [Frame.extend_extend] at hnewline
  rw [Frame.extend_extend, Frame.extend_extend, List.append_nil, List.append_assoc, ← hnewline,
    ← hwords, ← Stack.read_cons, ← Stack.read_append] at hrests
  exact ⟨_, hps.append (.mark (x := ⟨.newline, span⟩) rfl hqs), hrests⟩

lemma Construct.Reads.whileLoop {condition : Chain} {body : Body} (hcondition : condition.Reads)
    (hbody : body.Reads) : (Construct.whileLoop condition body).Reads := by
  intro xs s field outer below hxs hs
  refine read_block .whileLoop hxs hs fun ys F hys hF => ?_
  obtain ⟨ps, hps, hread⟩ := hcondition.guards hbody hys hF (outer :: below)
  exact ⟨ps, hps, hread ▸ Stack.rests_self _ _ _⟩

lemma Construct.Reads.beginBlock {body : Body} (hbody : body.Reads) :
    (Construct.beginBlock body).Reads := by
  intro xs s field outer below hxs hs
  refine read_block .beginBlock hxs hs fun ys F hys hF => ?_
  have hl : F.expect.listed? .newline = some (.block .beginBlock, false) := by
    rw [hF]
    rfl
  obtain ⟨ps, hps, hread⟩ := hbody.inside hys
    (Stack.rests_self (fun _ => True) F (outer :: below)) trivial hl
  exact ⟨ps, hps, hread ▸ Stack.rests_self _ _ _⟩

lemma Construct.Reads.forLoop {body : Body} (name : Word) (items : List Word) (hbody : body.Reads) :
    (Construct.forLoop name items body).Reads := by
  intro xs s field outer below hxs hs
  refine read_block .forLoop hxs hs fun us F hus hF => ?_
  obtain ⟨span, us, rfl, htail⟩ := exists_placed hus
  obtain ⟨span', ys, rfl, hys⟩ := exists_placed htail
  have hname : Stack.step ⟨F, outer :: below⟩ (Placed.terminal ⟨.word name, span⟩) =
      ⟨F.extend [.leaf .word (some .name) span] (.loopHeader true false), outer :: below⟩ :=
    Stack.step_take (.loopName hF rfl)
  have hin : Stack.step
      ⟨F.extend [.leaf .word (some .name) span] (.loopHeader true false), outer :: below⟩
      (Placed.terminal ⟨.keyword .among, span'⟩) =
        ⟨F.extend [.leaf .word (some .name) span, .leaf .keyword none span']
          (.loopHeader true true), outer :: below⟩ :=
    Stack.step_take (.loopIn rfl rfl)
  obtain ⟨ps, hps, hread⟩ := hbody.headed takesWords_items rfl (f := F.extend
    [.leaf .word (some .name) span, .leaf .keyword none span'] (.loopHeader true true)) rfl hys
    (outer :: below)
  rw [Frame.extend_extend] at hread
  refine ⟨.leaf .word (some .name) span :: .leaf .keyword none span' :: ps, ?_, ?_⟩
  · exact .word (x := ⟨.word name, span⟩) rfl (by decide)
      (.mark (x := ⟨.keyword .among, span'⟩) rfl hps)
  · rw [Stack.read_cons, hname, Stack.read_cons, hin, hread]
    exact Stack.rests_self _ _ _

lemma FunctionName.wordKind_eq (name : FunctionName) : wordKind name.text = .word := by
  unfold wordKind
  split
  · rename_i h
    exact absurd (by rw [h]; rfl) name.noDash
  · rfl

lemma Construct.Reads.function {body : Body} (name : FunctionName) (options : List Word)
    (hbody : body.Reads) : (Construct.function name options body).Reads := by
  intro xs s field outer below hxs hs
  refine read_block .function hxs hs fun us F hus hF => ?_
  obtain ⟨span, ys, rfl, hys⟩ := exists_placed hus
  have hname : Stack.step ⟨F, outer :: below⟩ (Placed.terminal ⟨.word name.toWord, span⟩) =
      ⟨F.extend [.leaf .word (some .name) span] (.functionHeader true), outer :: below⟩ :=
    Stack.step_take (.functionName hF rfl name.wordKind_eq)
  obtain ⟨ps, hps, hread⟩ := hbody.headed takesWords_options rfl
    (f := F.extend [.leaf .word (some .name) span] (.functionHeader true)) rfl hys (outer :: below)
  rw [Frame.extend_extend] at hread
  refine ⟨.leaf .word (some .name) span :: ps, ?_, ?_⟩
  · exact .word (x := ⟨.word name.toWord, span⟩) rfl (by decide) hps
  · rw [Stack.read_cons, hname, hread]
    exact Stack.rests_self _ _ _

/-! ## Programs -/

mutual

theorem Construct.reads : ∀ c : Construct, c.Reads
  | .pipeline first others => .pipeline first others
  | .returning args => .returning args
  | .ifBlock condition body branches =>
    .ifBlock condition.reads body.reads branches.reads
  | .switchBlock values cases => .switchBlock values cases.reads
  | .forLoop name items body => .forLoop name items body.reads
  | .whileLoop condition body => .whileLoop condition.reads body.reads
  | .beginBlock body => .beginBlock body.reads
  | .function name options body => .function name options body.reads

theorem Statement.reads : ∀ s : Statement, s.Reads
  | .plain construct => construct.reads.plain
  | .prefixed conjunction construct => construct.reads.prefixed conjunction

theorem Chain.reads : ∀ c : Chain, c.Reads
  | .of first links => first.reads.chain links.reads

theorem Links.reads : ∀ ls : Links, ls.Reads
  | .nil => .nil
  | .cons connector statement rest => .cons statement.reads rest.reads connector

theorem Body.reads : ∀ b : Body, b.Reads
  | .nil => .nil
  | .cons chain rest => .cons chain.reads rest.reads

theorem Branches.reads : ∀ b : Branches, b.Reads
  | .nil => .nil
  | .otherwise body => body.reads.otherwise
  | .elseIf condition body rest => .elseIf condition.reads body.reads rest.reads

theorem Cases.reads : ∀ c : Cases, c.Reads
  | .nil => .nil
  | .cons patterns body rest => .cons patterns body.reads rest.reads

end

/-- The phrase of a printed program is a node for it, whose phrases show its statements. -/
lemma parseTerminals_print (p : Program) :
    ∃ ps, Shows ps (place 0 p.body.lexemes) p.body.outlines ∧
      parseTerminals ((place 0 p.body.lexemes).map Placed.terminal) = .node .program none ps := by
  obtain ⟨ps, hps, hread⟩ := p.body.reads (place 0 p.body.lexemes)
    ⟨.program, none, [], .statements .program false⟩ .program [] (map_lexeme_place _ _)
  refine ⟨ps, hps, ?_⟩
  have hrun : (((place 0 p.body.lexemes).map Placed.terminal).foldl Stack.step .initial) =
      Stack.read .initial (place 0 p.body.lexemes) := by
    rw [Stack.read, List.foldl_map]
  have hinitial : Stack.initial = ⟨Frame.extend ⟨.program, none, [], .statements .program false⟩ []
      (.statements .program false), []⟩ := rfl
  rw [parseTerminals, hrun, hinitial, hread, Stack.phrase, Stack.close, Frame.phrase_extend]
  rfl

lemma text?_spanOf {ps : List Phrase} {ls : List Lexeme} {os : List Outline} {id : Nat}
    (hps : Shows ps (place 0 ls) os) (hwritten : Written (spell ls) 0 ls) :
    (OpenNode.spanOf (reachOfAll 0 ps) (plantAll id 0 ps).reverse).text? (spell ls) =
      some (spell ls) := by
  obtain ⟨-, -, hcovers⟩ := hps.plant rfl hwritten id 0
  by_cases hnone : plantAll id 0 ps = []
  · -- an empty program stands at the start of an empty source
    have hxs := hps.lexemes_eq_nil hnone
    have hls : ls = [] := by rw [← map_lexeme_place ls 0, hxs, List.map_nil]
    subst hls
    cases ps with
    | nil => rfl
    | cons p ps => cases hnone
  · rw [hcovers.spanOf_reverse hnone]
    exact hwritten.text?

/-- Parsing inverts printing: a printed program, whose blocks do not nest deeper than the limit,
has a tree without errors, and what is named in the tree is the outline of the program. -/
theorem parse_print (p : Program) (h : p.body.nesting ≤ maxNesting) :
    ∃ root, parse p.print = .ok ⟨p.print, [root]⟩ ∧ (∀ n ∈ root.preorder, n.kind ≠ .error) ∧
      root.outline p.print = p.outline := by
  obtain ⟨ps, hps, hparse⟩ := parseTerminals_print p
  have hroot : rootOf p.print = (Phrase.node .program none ps).plant 0 0 := by
    rw [rootOf, limited_print p h, hparse]
  have hwritten : Written p.print 0 p.body.lexemes := ⟨[], [], rfl, by rw [print]; simp⟩
  obtain ⟨houtlines, herrors, -⟩ := hps.plant rfl hwritten 1 0
  refine ⟨rootOf p.print, parse_eq p.print, ?_, ?_⟩
  · intro n hn
    rw [hroot, Phrase.plant, Node.preorder] at hn
    rcases List.mem_cons.1 hn with rfl | hn
    · exact NodeKind.noConfusion
    · exact herrors n hn
  · have htext : (OpenNode.spanOf (reachOfAll 0 ps) (plantAll (0 + 1) 0 ps).reverse).text? p.print =
        some p.print := text?_spanOf hps hwritten
    rw [hroot, Phrase.plant, Node.outline, houtlines, outline, htext]
    rfl

/-! ## A program at the limit -/

/-- A body inside so many blocks of its own. -/
def Body.within : Nat → Body → Body
  | 0, body => body
  | n + 1, body => .cons (.of (.plain (.beginBlock (body.within n))) .nil) .nil

/-- A function with a conditional that begins with a block, keywords among arguments and a
pipeline that sets a variable. -/
def deepProgram : Program :=
  let set : CommandName := ⟨⟨"set".toList, by decide +kernel, by decide +kernel⟩, by decide +kernel⟩
  let test : CommandName :=
    ⟨⟨"test".toList, by decide +kernel, by decide +kernel⟩, by decide +kernel⟩
  let name : FunctionName :=
    ⟨⟨"_f".toList, by decide +kernel, by decide +kernel⟩, by decide +kernel⟩
  let global : Word := ⟨"-gx".toList, by decide +kernel, by decide +kernel⟩
  let quoted : Word := ⟨"'a b'$x\\;".toList, by decide +kernel, by decide +kernel⟩
  let block : Construct := .beginBlock
    (.cons (.of (.plain (.pipeline ⟨test, [(Keyword.closing .blockEnd).word]⟩ [])) .nil) .nil)
  let condition : Chain := .of (.prefixed .and block)
    (.cons .orOr (.prefixed .or (.returning [(Keyword.opener .ifBlock).word])) .nil)
  let pipeline : Construct := .pipeline ⟨set, [global, quoted]⟩ [⟨test, [quoted]⟩]
  let conditional : Construct := .ifBlock condition (.cons (.of (.plain pipeline) .nil) .nil)
    (.elseIf condition .nil (.otherwise .nil))
  let function : Construct := .function name [(Keyword.closing .elseBranch).word]
    (.cons (.of (.plain conditional) .nil) .nil)
  ⟨.within 29 (.cons (.of (.plain function) .nil) .nil)⟩

theorem parse_print_deepProgram : deepProgram.body.nesting ≤ maxNesting ∧
    ∃ root, parse deepProgram.print = .ok ⟨deepProgram.print, [root]⟩ ∧
      (∀ n ∈ root.preorder, n.kind ≠ .error) ∧
      root.outline deepProgram.print = deepProgram.outline :=
  ⟨by decide +kernel, parse_print deepProgram (by decide +kernel)⟩

end Program

end FishScript
