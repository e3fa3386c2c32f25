/-
# Where the grammar sees blocks

A scan over the terminals that knows exactly which blocks are open for the grammar. Unlike the
scan of the nesting limit it remembers, besides whether a command may begin, what the words mean
where none may, and which closing words the open blocks know.

The scan forgets everything else about the stack of the parser. That it is right is a simulation
(`Stack.scan_step`): what it knows of a stack after a terminal follows from what it knew before.
-/
import Mathlib
import FishScript.Proofs.Grammar.Shape

namespace FishScript

/-! ## The scan -/

/-- The symbol is a word. -/
def Symbol.isWord : Symbol → Bool
  | .word _ => true
  | _ => false

lemma Symbol.exists_of_isWord {x : Symbol} (h : x.isWord = true) : ∃ w, x = .word w := by
  cases x with
  | word w => exact ⟨w, rfl⟩
  | _ => cases h

/-- What an open block makes of the closing words besides `end`. -/
inductive Level
  /-- It has clauses that begin with `else`. -/
  | conditional
  /-- It has clauses that begin with `case`. -/
  | choice
  /-- It has none, or none any more. -/
  | plain
deriving DecidableEq, Repr

/-- Where the next terminal stands. -/
inductive Place
  /-- A command may begin. -/
  | command
  /-- Right after an `else` that begins a clause. -/
  | afterElse
  /-- After a bar behind a command. -/
  | stage
  /-- Among the arguments of a command. -/
  | arguments
  /-- Among words of which none is reserved. -/
  | words
  /-- Among the words behind a closing word that closes nothing. -/
  | strayWords
deriving DecidableEq, Repr

namespace Block

/-- What the open block makes of the closing words. -/
def level : Block → Level
  | .ifBlock => .conditional
  | .switchBlock => .choice
  | _ => .plain

/-- Where the terminal after the opening word stands. -/
def place : Block → Place
  | .function | .forLoop | .switchBlock => .words
  | .ifBlock | .whileLoop | .beginBlock => .command

end Block

/-- What the scan knows between two terminals. -/
structure BlockScan where
  /-- Where the next terminal stands. -/
  place : Place
  /-- The open blocks, the innermost first. -/
  levels : List Level
deriving DecidableEq, Repr

namespace BlockScan

/-- What is known before the first terminal. -/
def initial : BlockScan := ⟨.command, []⟩

/-- What is known after a closing word. -/
def close (levels : List Level) (c : Closing) : BlockScan :=
  match c, levels with
  | .blockEnd, _ :: outer => ⟨.words, outer⟩
  | .elseBranch, .conditional :: _ => ⟨.afterElse, levels⟩
  | .nextCase, .choice :: _ => ⟨.words, levels⟩
  | _, _ => ⟨.strayWords, levels⟩

/-- What is known after a word with which a construct begins. -/
def start (levels : List Level) (w : Text) : BlockScan :=
  match Block.ofOpener? w with
  | some b => ⟨b.place, b.level :: levels⟩
  | none =>
    if isReturn w then ⟨.words, levels⟩
    else if isConjunction w then ⟨.command, levels⟩
    else ⟨.arguments, levels⟩

/-- What is known after a symbol where a command may begin. -/
def atCommand (levels : List Level) : Symbol → BlockScan
  | .word w =>
    match Closing.ofWord? w with
    | some c => close levels c
    | none => start levels w
  | .garbage => ⟨.words, levels⟩
  | _ => ⟨.command, levels⟩

/-- What is known after a symbol. -/
def step (s : BlockScan) (x : Symbol) : BlockScan :=
  match s.place with
  | .command => atCommand s.levels x
  | .afterElse =>
    if x = .word "if".toList then ⟨.command, s.levels⟩
    else atCommand (.plain :: s.levels.tail) x
  | .stage =>
    if x = .newline ∨ x = .pipe then s
    else if x.starter?.isSome then ⟨.arguments, s.levels⟩
    else atCommand s.levels x
  | .arguments =>
    if x.isWord then s else if x = .pipe then ⟨.stage, s.levels⟩ else atCommand s.levels x
  | .words => if x.isWord then s else atCommand s.levels x
  | .strayWords => if x.starter?.isSome then s else atCommand s.levels x

/-- What is known after some terminals. -/
def run (ts : List Terminal) : BlockScan :=
  ts.foldl (fun s t => s.step t.symbol) initial

end BlockScan

/-! ## What the scan knows of a stack -/

namespace Expect

/-- Where the next terminal stands for a node that expects this. -/
def place : Expect → Place
  | .elseHead => .afterElse
  | .functionHeader _ | .loopHeader _ _ | .headerWords _ | .finalWords | .garbage => .words
  | .strayWords => .strayWords
  | .arguments _ _ | .bar => .arguments
  | .stage => .stage
  | _ => .command

/-- The open blocks at a node that expects this, where `outer` are those around it. -/
def levels (outer : List Level) : Expect → List Level
  | .elseHead => outer
  | e =>
    match e.holder? with
    | some (.block b) => b.level :: outer
    | some .otherwise => .plain :: outer.tail
    | _ => outer

lemma levels_of_holder?_eq_none {e : Expect} (he : e.holder? = none) (outer : List Level) :
    e.levels outer = outer := by
  cases e <;> first | rfl | cases he

end Expect

namespace Stack

/-- The blocks that are open in some open nodes, the innermost node first. -/
def levels : List Frame → List Level
  | [] => []
  | f :: below => f.expect.levels (levels below)

/-- What the scan knows of open nodes. -/
def scan (top : Frame) (below : List Frame) : BlockScan :=
  ⟨top.expect.place, levels (top :: below)⟩

end Stack

/-! ## Which nodes stand in which -/

namespace Frame

/-- The node is a command of a pipeline behind the first. -/
def IsStaged (f : Frame) : Prop := ∃ scan, f.expect = .arguments true scan

variable {f : Frame} {t : Terminal} {m : Move}

lemma Rule.isStaged_iff (hm : f.Rule t m) : m.frame.IsStaged ↔ f.IsStaged := by
  have hlist : ∀ {h j}, f.Lists t h j → ¬ f.IsStaged := by
    rintro h j hl ⟨scan, hs⟩
    rw [Lists, hs] at hl
    cases hl
  cases hm with
  | terminator hl | comment hl | join hl | dangle hl | garble hl | begin hl | close hl | clause hl
  | stray hl => exact iff_of_false (by simp [IsStaged, take, enter]) (hlist hl)
  | bar he => obtain he | he := he <;> simp [IsStaged, take, he]
  | functionName he | functionOption he | loopName he | loopIn he | loopItem he | headerWord he
  | condition he | conditionJoin he | elseIf he | finalWord he | strayWord he | argument he
  | pipe he | conjunction he | conjoined he | connector he | connected he | garbage he
  | lineBreak he | lineComment he | joined he | stageBreak he | staged he =>
    simp [IsStaged, take, enter, piped, he]

lemma Rule.holder?_ne_program (hm : f.Rule t m) (hf : f.expect.holder? ≠ some .program) :
    m.frame.expect.holder? ≠ some .program := by
  have hlist : ∀ {h j}, f.Lists t h j → h ≠ .program := by
    rintro h j hl rfl
    exact hf (Expect.holder?_of_listed? hl)
  cases hm with
  | terminator hl | comment hl | join hl | dangle hl | garble hl | begin hl | clause hl
  | stray hl => simpa [take, enter, Expect.holder?] using hlist hl
  | headerWord he | condition he | conditionJoin he =>
    rw [he] at hf
    exact hf
  | _ => simp [take, enter, piped, Expect.holder?]

lemma construct_expect (field : Option Field) (t : Terminal) (w : Text) :
    (∃ b : Block, (construct field t w).expect = b.header) ∨
      (construct field t w).expect = .finalWords ∨
      (construct field t w).expect = .conjunctions ∨
      ∃ scan, (construct field t w).expect = .arguments false scan := by
  unfold construct
  split
  · exact .inl ⟨_, rfl⟩
  · split
    · exact .inr (.inl rfl)
    · split
      · exact .inr (.inr (.inl rfl))
      · exact .inr (.inr (.inr ⟨_, rfl⟩))

/-- A new node is not the program and waits for no bar. It is a command of a pipeline if and only
if the node around it waits for the next bar. -/
lemma Rule.inner (hm : f.Rule t m) {inner : Frame} (hi : m.inner? = some inner) :
    inner.expect.holder? ≠ some .program ∧ (m.frame.expect = .bar ↔ inner.IsStaged) ∧
      inner.expect ≠ .bar := by
  have hconstruct : ∀ {field w}, (construct field t w).expect.holder? ≠ some .program ∧
      ¬ (construct field t w).IsStaged ∧ (construct field t w).expect ≠ .bar := by
    intro field w
    unfold IsStaged
    obtain ⟨b, he⟩ | he | he | ⟨scan, he⟩ := construct_expect field t w
    · cases b <;> simp [he, Block.header, Expect.holder?]
    · simp [he, Expect.holder?]
    · simp [he, Expect.holder?]
    · simp [he, Expect.holder?]
  cases hm with
  | begin | condition | conjoined | connected | joined =>
    cases hi
    obtain ⟨hprogram, hstaged, hbar⟩ := hconstruct
    exact ⟨hprogram, by simp [enter, hstaged], hbar⟩
  | @clause h j c =>
    cases hi
    cases c <;> simp [enter, Frame.clause, opened, IsStaged, Expect.holder?]
  | join | dangle | garble | stray | conditionJoin =>
    cases hi
    simp [enter, joining, dangling, garbled, Frame.stray, opened, IsStaged, Expect.holder?]
  | staged =>
    cases hi
    simp [enter, command, opened, IsStaged, Expect.holder?]
  | _ => cases hi

lemma Rule.expect_ne_bar (hm : f.Rule t m) (hi : m.inner? = none) : m.frame.expect ≠ .bar := by
  cases hm with
  | join | dangle | garble | begin | clause | stray | condition | conditionJoin | conjoined
  | connected | joined | staged => cases hi
  | _ => simp [take, piped]

end Frame

namespace Stack

variable {source : Text} {gs : List Span} {t : Terminal}

/-- Only the outermost node is the program, and exactly the nodes inside one that waits for a bar
are commands of a pipeline. -/
def Nested : Frame → List Frame → Prop
  | _, [] => True
  | top, next :: below =>
    top.expect.holder? ≠ some .program ∧ (next.expect = .bar ↔ top.IsStaged) ∧ Nested next below

lemma Nested.pop {top next : Frame} {below : List Frame} (h : Nested top (next :: below))
    (p : Phrase) : Nested (next.add p) below := by
  cases below with
  | nil => trivial
  | cons next' below => exact h.2.2

lemma Nested.ofMove {top : Frame} {below : List Frame} {m : Move} (h : Nested top below)
    (hm : top.Rule t m) : Nested (ofMove m below).top (ofMove m below).below := by
  have hframe : Nested m.frame below := by
    cases below with
    | nil => trivial
    | cons next below => exact ⟨hm.holder?_ne_program h.1, h.2.1.trans hm.isStaged_iff.symm, h.2.2⟩
  unfold Stack.ofMove
  split
  · exact hframe
  · rename_i inner hi
    obtain ⟨hprogram, hstaged, -⟩ := hm.inner hi
    exact ⟨hprogram, hstaged, hframe⟩

lemma expect_of_clause {top next : Frame} {below : List Frame}
    (hc : Chained source gs top (next :: below)) {b : Block} (hb : top.kind.clauseOf? = some b) :
    next.expect = .statements (.block b) false := by
  have hawaits := hc.2.1
  unfold Frame.Awaits at hawaits
  rw [hb] at hawaits
  exact hawaits.1

lemma levels_of_clause {top : Frame} {below : List Frame} (hroot : Rooted top below)
    (hc : Chained source gs top below) {b : Block} (hb : top.kind.clauseOf? = some b) :
    ∃ outer, levels below = b.level :: outer := by
  cases below with
  | nil =>
    rw [hroot.1] at hb
    cases hb
  | cons next below =>
    refine ⟨levels below, ?_⟩
    rw [levels, expect_of_clause hc hb]
    rfl

end Stack

/-! ## The simulation -/

namespace Frame

variable {source : Text} {gs : List Span} {clauses : List Part} {f : Frame} {t : Terminal}
  {m : Move}

lemma Lists.scan_step {h : Holder} {j : Bool} (hl : f.Lists t h j) (below : List Frame) :
    (Stack.scan f below).step t.symbol =
      .atCommand ((Expect.statements h j).levels (Stack.levels below)) t.symbol := by
  have hscan : Stack.scan f below = ⟨f.expect.place, f.expect.levels (Stack.levels below)⟩ := rfl
  rw [hscan]
  unfold Lists Expect.listed? at hl
  split at hl
  case h_1 he => cases hl; rw [he]; rfl
  case h_2 he | h_3 he | h_4 he =>
    rw [he]
    split at hl
    · cases hl
    · rename_i hw
      cases hl
      cases hs : t.symbol with
      | word w => exact absurd hs (hw w)
      | _ => rfl
  case h_5 he | h_6 he =>
    rw [he]
    split at hl
    · cases hl
    · cases hl; rfl
  case h_7 he =>
    rw [he]
    split at hl
    · cases hl
    · rename_i hw
      cases hl
      exact if_neg hw
  case h_8 => cases hl

end Frame

namespace BlockScan

variable {h : Holder} {j : Bool} {outer : List Level} {c : Closing}

lemma close_of_closes {b : Block} (hr : h.role c = .closes b) :
    close ((Expect.statements h j).levels outer) c = ⟨.words, outer⟩ := by
  obtain ⟨rfl, rfl⟩ := Holder.role_eq_closes hr
  rfl

lemma start_eq (field : Option Field) (t : Terminal) (w : Text) (levels : List Level) :
    start levels w = ⟨(Frame.construct field t w).expect.place,
      (Frame.construct field t w).expect.levels levels⟩ := by
  unfold start Frame.construct
  cases Block.ofOpener? w with
  | some b => cases b <;> rfl
  | none =>
    simp only
    split
    · rfl
    · split <;> rfl

lemma start_conjunction {w : Text} (hw : isConjunction w = true) (levels : List Level) :
    start levels w = ⟨.command, levels⟩ := by
  simp only [isConjunction, Bool.or_eq_true, beq_iff_eq] at hw
  obtain rfl | rfl := hw <;> rfl

lemma atCommand_starter {x : Symbol} {w : Text} (hs : x.starter? = some w) (levels : List Level) :
    atCommand levels x = start levels w := by
  obtain ⟨rfl, hw⟩ := Symbol.starter?_eq_some.1 hs
  simp [atCommand, hw]

lemma atCommand_closing {x : Symbol} (hs : x.closing? = some c) (levels : List Level) :
    atCommand levels x = close levels c := by
  cases x with
  | word w =>
    rw [Symbol.closing?] at hs
    simp [atCommand, hs]
  | _ => cases hs

lemma atCommand_connector {x : Symbol} (hs : x.isConnector = true) (levels : List Level) :
    atCommand levels x = ⟨.command, levels⟩ := by
  cases x with
  | andAnd | orOr => rfl
  | _ => cases hs

end BlockScan

namespace Stack

variable {source : Text} {gs : List Span} {t : Terminal} {top next : Frame} {below : List Frame}
  {m : Move}

/-- A closing word that strays leaves the open blocks as they are. -/
lemma close_of_strays (hroot : Rooted top below) (hr : top.Ready source gs t)
    (hc : Chained source gs top below) {h : Holder} {j : Bool} {c : Closing}
    (hl : top.Lists t h j) (hrole : h.role c = .strays)
    (hn : below ≠ [] → h ≠ .program) :
    BlockScan.close ((Expect.statements h j).levels (levels below)) c =
      ⟨.strayWords, (Expect.statements h j).levels (levels below)⟩ := by
  obtain ⟨clauses, hfits, -⟩ := hr
  have hkeeps := Expect.Fits.keeps hfits (Expect.holder?_of_listed? hl)
  cases h with
  | program =>
    have hnil : below = [] := by_contra fun h => hn h rfl
    subst hnil
    cases c <;> rfl
  | block b => cases b <;> cases c <;> first | rfl | cases hrole
  | otherwise => cases c <;> first | rfl | cases hrole
  | elseIf | caseClause =>
    obtain ⟨outer, houter⟩ := levels_of_clause hroot hc (by rw [hkeeps.1]; rfl)
    show BlockScan.close (levels below) c = ⟨.strayWords, levels below⟩
    rw [houter]
    cases c <;> first | rfl | cases hrole

theorem scan_move (hroot : Rooted top below) (hnested : Nested top below)
    (hr : top.Ready source gs t) (hc : Chained source gs top below) (hm : top.Rule t m) :
    scan (ofMove m below).top (ofMove m below).below = (scan top below).step t.symbol := by
  -- outside the lists of statements the place is that of what the node expects
  have hscan : ∀ {e}, top.expect = e →
      scan top below = ⟨e.place, e.levels (levels below)⟩ := fun he => by rw [← he]; rfl
  cases hm with
  | terminator hl hs =>
    rw [hl.scan_step]
    obtain hs | hs := hs <;> rw [hs] <;> rfl
  | comment hl hs | garble hl hs => rw [hl.scan_step, hs]; rfl
  | join hl hs => rw [hl.scan_step, BlockScan.atCommand_connector hs]; rfl
  | dangle hl hs =>
    rw [hl.scan_step]
    obtain hs | ⟨hs, -⟩ := hs
    · rw [hs]; rfl
    · rw [BlockScan.atCommand_connector hs]; rfl
  | begin hl hs =>
    rw [hl.scan_step, BlockScan.atCommand_starter hs, BlockScan.start_eq none t]
    rfl
  | close hl hs hrole =>
    rw [hl.scan_step, BlockScan.atCommand_closing hs, BlockScan.close_of_closes hrole]
    rfl
  | @clause h j c hl hs hrole =>
    rw [hl.scan_step, BlockScan.atCommand_closing hs]
    obtain ⟨b, rfl⟩ := Holder.role_eq_beginsClause hrole
    cases b <;> cases c <;> first | rfl | cases hrole
  | stray hl hs hrole =>
    rw [hl.scan_step, BlockScan.atCommand_closing hs, close_of_strays hroot hr hc hl hrole]
    · rfl
    · rintro hne rfl
      obtain ⟨next, below, rfl⟩ := List.exists_cons_of_ne_nil hne
      exact hnested.1 (Expect.holder?_of_listed? hl)
  | functionName he hs | functionOption he hs | loopName he hs | loopIn he hs | loopItem he hs
  | headerWord he hs | finalWord he hs | argument he hs =>
    rw [hscan he, hs]
    rfl
  | condition he hs =>
    rw [hscan he]
    show _ = BlockScan.atCommand _ t.symbol
    rw [BlockScan.atCommand_starter hs, BlockScan.start_eq (some .condition) t]
    rfl
  | conditionJoin he hs =>
    rw [hscan he]
    show _ = BlockScan.atCommand _ t.symbol
    rw [BlockScan.atCommand_connector hs]
    rfl
  | elseIf he hs => rw [hscan he, hs]; rfl
  | strayWord he hs =>
    rw [hscan he]
    simp only [BlockScan.step, Expect.place, hs]
    rfl
  | pipe he hs => rw [hscan he, hs]; rfl
  | conjunction he hs hw =>
    rw [hscan he]
    show _ = BlockScan.atCommand _ t.symbol
    rw [BlockScan.atCommand_starter hs, BlockScan.start_conjunction hw]
    rfl
  | conjoined he hs hw | connected he hs | joined he hs =>
    rw [hscan he]
    show _ = BlockScan.atCommand _ t.symbol
    rw [BlockScan.atCommand_starter hs, BlockScan.start_eq none t]
    rfl
  | connector he hs =>
    rw [hscan he]
    show _ = BlockScan.atCommand _ t.symbol
    obtain hs | hs := hs
    · rw [BlockScan.atCommand_connector hs]; rfl
    · rw [hs]; rfl
  | garbage he hs =>
    rw [hscan he]
    obtain hs | ⟨w, hs⟩ := hs <;> rw [hs] <;> rfl
  | lineBreak he hs | lineComment he hs | stageBreak he hs => rw [hscan he, hs]; rfl
  | bar he hs =>
    rw [hs]
    obtain he | he := he <;> rw [hscan he] <;> rfl
  | staged he hs =>
    rw [hscan he, (Symbol.starter?_eq_some.1 hs).1]
    rw [(Symbol.starter?_eq_some.1 hs).1] at hs
    simp only [BlockScan.step, Expect.place, hs]
    rfl

lemma place_of_awaits {outer inner : Frame} (ha : outer.Awaits source inner)
    (hk : inner.kind.clauseOf? = none) (hb : outer.expect ≠ .bar) :
    outer.expect.place = .command := by
  unfold Frame.Awaits at ha
  rw [hk] at ha
  cases he : outer.expect with
  | statements | conditionRest | nothing => rfl
  | bar => exact absurd he hb
  | _ => rw [he] at ha; exact ha.elim

/-- Where a node without statements refuses a terminal, the scan sees a command position, unless
a command of a pipeline refuses a bar. -/
lemma step_of_accept_eq_none (he : top.expect.holder? = none) (hn : top.accept t = none)
    (hbar : top.expect = .bar → t.symbol.isWord = false)
    (hstaged : top.IsStaged → t.symbol ≠ .pipe) (ls : List Level) :
    BlockScan.step ⟨top.expect.place, ls⟩ t.symbol = .atCommand ls t.symbol := by
  unfold Frame.accept at hn
  cases hx : top.expect with
  | finalWords =>
    rw [hx] at hn
    cases hs : t.symbol <;> first | rfl | simp [hs] at hn
  | garbage =>
    rw [hx] at hn
    cases hs : t.symbol <;> first | rfl | simp [hs] at hn
  | strayWords =>
    rw [hx] at hn
    cases hs : t.symbol.starter? with
    | some w => simp [hs] at hn
    | none => simp [BlockScan.step, Expect.place, hs]
  | arguments staged scan =>
    rw [hx] at hn
    cases hs : t.symbol with
    | word w => simp [hs] at hn
    | pipe =>
      cases staged
      · simp [hs] at hn
      · exact absurd hs (hstaged ⟨scan, hx⟩)
    | _ => rfl
  | stage =>
    rw [hx] at hn
    cases hs : t.symbol with
    | newline | pipe => simp [hs] at hn
    | word w =>
      rw [hs] at hn
      simp [BlockScan.step, Expect.place, Option.map_eq_none_iff.1 hn]
    | _ => rfl
  | bar =>
    rw [hx] at hn
    cases hs : t.symbol with
    | pipe => simp [hs] at hn
    | word w =>
      have hword := hbar hx
      rw [hs] at hword
      cases hword
    | _ => rfl
  | conjunctions | connectors | joined | nothing => rfl
  | _ => simp [hx, Expect.holder?] at he

theorem scan_pop (hnested : Nested top (next :: below)) (hr : top.Ready source gs t)
    (hc : Chained source gs top (next :: below)) (hn : top.accept t = none)
    (hbar : top.expect = .bar → t.symbol.isWord = false) :
    (scan (next.add top.phrase) below).step t.symbol =
      (scan top (next :: below)).step t.symbol := by
  have hnext : scan (next.add top.phrase) below =
      ⟨next.expect.place, levels (next :: below)⟩ := rfl
  rw [hnext]
  obtain ⟨clauses, hfits, -⟩ := hr
  cases he : top.expect.holder? with
  | some h =>
    -- the node is a clause, and the terminal is for its block
    obtain ⟨j, hl⟩ := Frame.lists_of_accept_eq_none he hn
    obtain ⟨c, hclosing, hrole⟩ := Frame.leaves_of_accept_eq_none hl hn
    have hkeeps := Expect.Fits.keeps hfits he
    rw [hl.scan_step, BlockScan.atCommand_closing hclosing]
    cases h with
    | program => cases c <;> cases hrole
    | block b => cases b <;> cases c <;> cases hrole
    | elseIf | caseClause | otherwise =>
      rw [levels, expect_of_clause hc (by rw [hkeeps.1]; rfl)]
      show BlockScan.atCommand _ t.symbol = _
      rw [BlockScan.atCommand_closing hclosing]
      cases c <;> first | rfl | cases hrole
  | none =>
    have hlevels : scan top (next :: below) = ⟨top.expect.place, levels (next :: below)⟩ := by
      rw [scan, levels, Expect.levels_of_holder?_eq_none he]
    rw [hlevels]
    by_cases hnbar : next.expect = .bar
    · obtain ⟨scan, hx⟩ := hnested.2.1.1 hnbar
      rw [hnbar, hx]
      rfl
    · rw [step_of_accept_eq_none he hn hbar fun hs => absurd (hnested.2.1.2 hs) hnbar]
      have hclause : top.kind.clauseOf? = none := by
        by_contra hb
        obtain ⟨b, hb⟩ := Option.ne_none_iff_exists'.1 hb
        obtain ⟨h, hh⟩ := Expect.Fits.holder?_of_clause hfits hb
        rw [he] at hh
        cases hh
      rw [place_of_awaits hc.2.1 hclause hnbar]
      rfl

/-- The stack is as it is between two terminals. -/
structure Settled (source : Text) (gs : List Span) (s : Stack) : Prop where
  grounded : s.Grounded
  nested : Nested s.top s.below
  wellShaped : s.WellShaped source gs
  expect_ne_bar : s.top.expect ≠ .bar

lemma settled_initial : Settled source gs .initial :=
  ⟨grounded_initial, trivial, wellShaped_initial, by simp [Stack.initial]⟩

theorem Settled.step {s : Stack} (h : s.Settled source gs) (ht : t.Reads source)
    (hg : t.Known gs) : (s.step t).Settled source gs ∧
      scan (s.step t).top (s.step t).below = (scan s.top s.below).step t.symbol := by
  obtain ⟨hgrounded, hnested, hshaped, hbar⟩ := h
  have hmoved : (Nested (s.step t).top (s.step t).below ∧ (s.step t).top.expect ≠ .bar) ∧
      scan (s.step t).top (s.step t).below = (scan s.top s.below).step t.symbol := by
    refine step_induction
      (P := fun top below => Rooted top below ∧ Nested top below ∧ top.Ready source gs t ∧
        Chained source gs top below ∧ (top.expect = .bar → t.symbol.isWord = false) ∧
        (scan top below).step t.symbol = (scan s.top s.below).step t.symbol)
      (Q := fun s' => (Nested s'.top s'.below ∧ s'.top.expect ≠ .bar) ∧
        scan s'.top s'.below = (scan s.top s.below).step t.symbol) hgrounded
      ⟨hgrounded, hnested, hshaped.1.ready t, hshaped.2, fun he => absurd he hbar, rfl⟩ ?_ ?_
    · rintro top next below ⟨hroot, hnested, hr, hc, hbar, hscan⟩ hn
      obtain ⟨clauses, hfits, -⟩ := id hr
      refine ⟨hroot.pop _, hnested.pop _, Frame.Ready.pop hc.2.1 hr hn, hc.pop hfits, ?_, ?_⟩
      · intro he
        -- the command before a bar takes every word
        obtain ⟨scan, hx⟩ := hnested.2.1.1 he
        cases hs : t.symbol with
        | word w => simp [Frame.accept, hx, hs] at hn
        | _ => rfl
      · rw [scan_pop hnested hr hc hn hbar, hscan]
    · rintro top below m ⟨hroot, hnested, hr, hc, -, hscan⟩ hm
      refine ⟨⟨hnested.ofMove hm, ?_⟩, (scan_move hroot hnested hr hc hm).trans hscan⟩
      unfold ofMove
      split
      case h_1 hi => exact hm.expect_ne_bar hi
      case h_2 inner hi => exact (hm.inner hi).2.2
  exact ⟨⟨hgrounded.step t, hmoved.1.1, hshaped.step hgrounded ht hg, hmoved.1.2⟩, hmoved.2⟩

end Stack

end FishScript
