/-
# The variable of the command `set`

The grammar marks the variable that a command `set` defines, by the texts of the words before it.
Which variable that is can also be told from all the words at once (`setting?`). The scan of the
grammar finds the same one (`argumentPhrases_searching`), so the tree of a source `set ...` is known
node by node.
-/
import Mathlib
import FishScript.Proofs.Program.Reading
import FishScript.Proofs.Token.Printing
import FishScript.Proofs.Tree.Planting

namespace FishScript

/-! ## Settings -/

namespace Setting

/-- The letters behind a single dash. -/
def cluster : Text → Text
  | '-' :: '-' :: _ => []
  | '-' :: letters => letters
  | _ => []

/-- The word is an option: it starts with a dash and has more bytes than the dash. -/
def IsOption (w : Text) : Prop := ['-'] <+: w ∧ 1 < w.byteLength

/-- The word is an option and not the two dashes behind which no options stand. -/
def Leads (w : Text) : Prop := IsOption w ∧ w ≠ "--".toList

/-- The option is one with which no variable is defined: a long one, with a value or without, or a
letter of a cluster. -/
def Asks (w : Text) : Prop :=
  (∃ name ∈ ["query", "erase", "show", "names"],
    w = "--".toList ++ name.toList ∨ "--".toList ++ name.toList ++ ['='] <+: w) ∨
  ∃ c ∈ cluster w, c ∈ ['q', 'e', 'S', 'n']

instance (w : Text) : Decidable (IsOption w) := inferInstanceAs (Decidable (_ ∧ _))

instance (w : Text) : Decidable (Leads w) := inferInstanceAs (Decidable (_ ∧ _))

-- found by itself, the instance would try every character there is for the letter
instance (w : Text) : Decidable (Asks w) :=
  @instDecidableOr _ _ (List.decidableBEx _ _) (List.decidableBEx _ (cluster w))

end Setting

open Setting

/-- A variable that is set, and the words between the name of the command and the variable. -/
structure Setting where
  /-- The words before the variable. -/
  before : List Token
  /-- The variable. -/
  name : Token
deriving DecidableEq

/-- What the command `set` defines with some arguments. If one of the options at the start only asks
it is nothing. Else it is the word behind them or, if two dashes end them, the one behind the
dashes. -/
def setting? (args : List Token) : Option Setting :=
  let options := args.takeWhile fun tok => Leads tok.text
  if ∃ tok ∈ options, Asks tok.text then none
  else
    match args.drop options.length with
    | [] => none
    | tok :: rest =>
      if tok.text = "--".toList then rest.head?.map fun name => ⟨options ++ [tok], name⟩
      else some ⟨options, tok⟩

/-! ## Options as the grammar knows them -/

namespace Setting

variable {w : Text}

lemma wordKind_eq_option_iff : wordKind w = .option ↔ IsOption w := by
  rcases w with _ | ⟨c, _ | ⟨d, t⟩⟩
  · simp [wordKind, IsOption]
  · by_cases hc : c = '-'
    · subst hc
      decide
    · simp [wordKind, IsOption, Ne.symm hc]
  · have hlong : 1 < Text.byteLength (c :: d :: t) := by
      have hc := c.utf8Size_pos
      have hd := d.utf8Size_pos
      simp only [Text.byteLength_cons]
      omega
    by_cases hc : c = '-'
    · subst hc
      exact iff_of_true rfl ⟨⟨d :: t, rfl⟩, hlong⟩
    · simp [wordKind, IsOption, hc, Ne.symm hc]

lemma takeWhile_eq_iff {name long : Text} (hname : '=' ∉ name) :
    long.takeWhile (· != '=') = name ↔ long = name ∨ name ++ ['='] <+: long := by
  have hall : ∀ c ∈ name, (c != '=') = true := by
    intro c hc
    rw [bne_iff_ne]
    rintro rfl
    exact hname hc
  constructor
  · intro h
    have hsplit : long = name ++ long.dropWhile (· != '=') := by
      rw [← h, List.takeWhile_append_dropWhile]
    rcases hrest : long.dropWhile (· != '=') with _ | ⟨c, rest⟩
    · rw [hrest, List.append_nil] at hsplit
      exact .inl hsplit
    · obtain rfl := head?_dropWhile_ne '=' long c (by rw [hrest]; rfl)
      exact .inr ⟨rest, by rw [hsplit, hrest, List.append_assoc, List.singleton_append]⟩
  · rintro (rfl | ⟨rest, rfl⟩)
    · exact List.takeWhile_eq_self_iff.2 hall
    · rw [List.append_assoc, List.takeWhile_append_of_pos hall]
      simp

lemma readsLong_iff {long : Text} :
    DefinitionScan.readsLong (long.takeWhile (· != '=')) = true ↔
      ∃ name ∈ ["query", "erase", "show", "names"],
        long = name.toList ∨ name.toList ++ ['='] <+: long := by
  have hnames : ∀ name ∈ ["query", "erase", "show", "names"], '=' ∉ name.toList := by decide
  rw [DefinitionScan.readsLong, List.any_eq_true]
  refine exists_congr fun name => and_congr_right fun hname => ?_
  rw [beq_iff_eq, eq_comm, takeWhile_eq_iff (hnames name hname)]

lemma asksOnly_of_short (h : ¬ "--".toList <+: w) :
    Program.asksOnly w = (cluster w).any DefinitionScan.readsShort := by
  unfold Program.asksOnly
  fun_cases cluster w with
  | case1 long => exact absurd ⟨long, rfl⟩ h
  | case2 | case3 => simp

lemma asksOnly_iff : Program.asksOnly w = true ↔ Asks w := by
  by_cases hlong : "--".toList <+: w
  · obtain ⟨long, rfl⟩ := hlong
    have hasks : Program.asksOnly ("--".toList ++ long) =
        DefinitionScan.readsLong (long.takeWhile (· != '=')) := rfl
    rw [hasks, readsLong_iff]
    simp [Asks, cluster]
  · have hname : ¬ ∃ name ∈ ["query", "erase", "show", "names"],
        w = "--".toList ++ name.toList ∨ "--".toList ++ name.toList ++ ['='] <+: w := by
      rintro ⟨name, -, rfl | hprefix⟩
      · exact hlong (List.prefix_append _ _)
      · rw [List.append_assoc] at hprefix
        exact hlong ((List.prefix_append _ _).trans hprefix)
    have hletter (c : Char) : DefinitionScan.readsShort c = true ↔ c ∈ ['q', 'e', 'S', 'n'] := by
      simp [DefinitionScan.readsShort, or_assoc]
    rw [Asks, or_iff_right hname, asksOnly_of_short hlong, List.any_eq_true]
    simp only [hletter]

end Setting

/-! ## The scan of the grammar -/

section Scan

variable {tok : Token} {args : List Token}

lemma setting?_dashes (h : tok.text = "--".toList) :
    setting? (tok :: args) = args.head?.map fun name => ⟨[tok], name⟩ := by
  have htake : (tok :: args).takeWhile (fun tok => Leads tok.text) = [] :=
    List.takeWhile_cons_of_neg (by simp [Leads, h])
  simp only [setting?, htake, List.length_nil, List.drop_zero, if_pos h]
  simp

lemma setting?_option (h : Leads tok.text) :
    setting? (tok :: args) =
      if Asks tok.text then none
      else (setting? args).map fun s => ⟨tok :: s.before, s.name⟩ := by
  have htake : (tok :: args).takeWhile (fun tok => Leads tok.text) =
      tok :: args.takeWhile fun tok => Leads tok.text :=
    List.takeWhile_cons_of_pos (decide_eq_true h)
  simp only [setting?, htake, List.exists_mem_cons_iff, List.length_cons, List.drop_succ_cons]
  by_cases hasks : Asks tok.text
  · rw [if_pos hasks, if_pos (.inl hasks)]
  · rw [if_neg hasks]
    simp only [hasks, false_or]
    split
    · rfl
    · split
      · rfl
      · split
        · simp [Function.comp_def]
        · rfl

lemma setting?_operand (h : ¬ IsOption tok.text) : setting? (tok :: args) = some ⟨[], tok⟩ := by
  have hdashes : tok.text ≠ "--".toList := by
    intro heq
    exact h (heq ▸ by decide)
  have htake : (tok :: args).takeWhile (fun tok => Leads tok.text) = [] :=
    List.takeWhile_cons_of_neg (by simp [Leads, h])
  simp only [setting?, htake, List.length_nil, List.drop_zero, if_neg hdashes]
  simp

/-- A word of a command as a leaf of a kind. -/
def Token.argument (kind : NodeKind) (tok : Token) : Phrase :=
  .leaf kind (some .argument) tok.span

/-- A word of a command that is no variable. -/
def Token.plain (tok : Token) : Phrase := tok.argument (wordKind tok.text)

/-- What the scan of a command makes of its arguments. -/
def argumentPhrases : DefinitionScan → List Token → List Phrase
  | _, [] => []
  | scan, tok :: args =>
    tok.argument (scan.step tok.text).1 :: argumentPhrases (scan.step tok.text).2 args

lemma argumentPhrases_idle (args : List Token) :
    argumentPhrases .idle args = args.map Token.plain := by
  induction args with
  | nil => rfl
  | cons tok args ih => exact congrArg (tok.plain :: ·) ih

/-- The scan marks the variable of the setting, and no word if there is none. -/
theorem argumentPhrases_searching (args : List Token) :
    (setting? args = none → argumentPhrases .searching args = args.map Token.plain) ∧
    ∀ s, setting? args = some s → ∃ rest, args = s.before ++ s.name :: rest ∧
      argumentPhrases .searching args =
        s.before.map (Token.argument .option) ++
          s.name.argument .variableDefinition :: rest.map Token.plain := by
  induction args with
  | nil =>
    refine ⟨fun _ => rfl, fun s hs => ?_⟩
    cases hs
  | cons tok args ih =>
    rw [argumentPhrases, Program.step_searching]
    by_cases hdashes : tok.text = "--".toList
    · rw [if_pos hdashes, setting?_dashes hdashes]
      rcases args with _ | ⟨name, rest⟩
      · refine ⟨fun _ => ?_, fun s hs => ?_⟩
        · rw [List.map_cons, Token.plain, hdashes]
          rfl
        · cases hs
      · refine ⟨by simp, fun s hs => ?_⟩
        obtain rfl := Option.some_inj.1 hs
        refine ⟨rest, rfl, ?_⟩
        rw [argumentPhrases, DefinitionScan.step, argumentPhrases_idle]
        rfl
    · rw [if_neg hdashes]
      by_cases hoption : IsOption tok.text
      · have hkind := wordKind_eq_option_iff.2 hoption
        have hplain : tok.argument .option = tok.plain := by rw [Token.plain, hkind]
        rw [if_pos hkind, setting?_option ⟨hoption, hdashes⟩]
        by_cases hasks : Asks tok.text
        · rw [if_pos hasks, if_pos (asksOnly_iff.2 hasks), argumentPhrases_idle, hplain]
          refine ⟨fun _ => rfl, fun s hs => ?_⟩
          cases hs
        · rw [if_neg hasks, if_neg (mt asksOnly_iff.1 hasks)]
          refine ⟨fun hnone => ?_, fun s hs => ?_⟩
          · rw [ih.1 (Option.map_eq_none_iff.1 hnone), List.map_cons, hplain]
          · obtain ⟨s', hs', rfl⟩ := Option.map_eq_some_iff.1 hs
            obtain ⟨rest, rfl, hphrases⟩ := ih.2 s' hs'
            refine ⟨rest, rfl, ?_⟩
            rw [hphrases]
            rfl
      · rw [if_neg (mt wordKind_eq_option_iff.1 hoption), setting?_operand hoption,
          argumentPhrases_idle]
        refine ⟨by simp, fun s hs => ?_⟩
        obtain rfl := Option.some_inj.1 hs
        exact ⟨args, rfl, rfl⟩

end Scan

/-! ## Reading a command -/

section Reading

variable {args : List Token}

lemma limitFrom_words (hwords : ∀ tok ∈ args, tok.kind = .word) (depth : Nat) :
    limitFrom ⟨false, false⟩ depth none (args.map Token.terminal) = args.map Token.terminal := by
  induction args with
  | nil => rfl
  | cons tok args ih =>
    obtain ⟨htok, hargs⟩ := List.forall_mem_cons.1 hwords
    have hsymbol : tok.terminal.symbol = .word tok.text := by
      simp [Token.terminal, Token.symbol, htok]
    have heffect : NestingScan.effect ⟨false, false⟩ (.word tok.text) = .same := rfl
    have hnext : NestingScan.next ⟨false, false⟩ (.word tok.text) = ⟨false, false⟩ := rfl
    rw [List.map_cons]
    simp only [limitFrom, hsymbol, heffect, hnext, ih hargs]

lemma foldl_step_arguments (hwords : ∀ tok ∈ args, tok.kind = .word) {f : Frame} {staged : Bool}
    {scan : DefinitionScan} (he : f.expect = .arguments staged scan) (below : List Frame) :
    ∃ scan', (args.map Token.terminal).foldl Stack.step ⟨f, below⟩ =
      ⟨f.extend (argumentPhrases scan args) (.arguments staged scan'), below⟩ := by
  induction args generalizing f scan with
  | nil =>
    refine ⟨scan, ?_⟩
    rw [← he]
    rfl
  | cons tok args ih =>
    obtain ⟨htok, hargs⟩ := List.forall_mem_cons.1 hwords
    have hsymbol : tok.terminal.symbol = .word tok.text := by
      simp [Token.terminal, Token.symbol, htok]
    have hstep : Stack.step ⟨f, below⟩ tok.terminal =
        ⟨f.extend [tok.argument (scan.step tok.text).1] (.arguments staged (scan.step tok.text).2),
          below⟩ :=
      Stack.step_of_rule (.argument he hsymbol)
    have hexpect : (f.extend [tok.argument (scan.step tok.text).1]
        (.arguments staged (scan.step tok.text).2)).expect =
          .arguments staged (scan.step tok.text).2 := rfl
    obtain ⟨scan', hread⟩ := ih hargs hexpect
    refine ⟨scan', ?_⟩
    rw [List.map_cons, List.foldl_cons, hstep, hread, Frame.extend_extend]
    rfl

/-- The command `set` with what is made of its arguments. -/
def setPhrase (ps : List Phrase) : Phrase :=
  .node .command none (.leaf .word (some .name) ⟨0, 3⟩ :: ps)

lemma parseTerminals_set (hwords : ∀ tok ∈ args, tok.kind = .word) :
    parseTerminals (⟨.word "set".toList, ⟨0, 3⟩⟩ :: args.map Token.terminal) =
      .node .program none [setPhrase (argumentPhrases .searching args)] := by
  have hexpect : (Frame.command none false ⟨.word "set".toList, ⟨0, 3⟩⟩ "set".toList).expect =
      .arguments false .searching := rfl
  obtain ⟨scan', hread⟩ := foldl_step_arguments hwords hexpect
    [⟨.program, none, [], .statements .program true⟩]
  have hstep : Stack.initial.step ⟨.word "set".toList, ⟨0, 3⟩⟩ =
      ⟨.command none false ⟨.word "set".toList, ⟨0, 3⟩⟩ "set".toList,
        [⟨.program, none, [], .statements .program true⟩]⟩ := rfl
  rw [parseTerminals, List.foldl_cons, hstep, hread]
  simp [Stack.phrase, Stack.close, Frame.phrase, Frame.add, Frame.extend, Frame.command,
    Frame.opened, setPhrase]

end Reading

/-! ## The nodes of the arguments -/

section Nodes

variable {source : Text} {kind : NodeKind} {toks args : List Token}

/-- The node is the leaf of a word of a command. -/
structure Node.IsArgument (source : Text) (kind : NodeKind) (tok : Token) (n : Node) : Prop where
  kind : n.kind = kind
  field : n.field = some .argument
  span : n.span = tok.span
  text : n.text source = tok.text

/-- The node of the variable of a setting, between the nodes of other words. -/
structure Setting.Marks (source : Text) (s : Setting) (before : List Node) (v : Node)
    (after : List Node) : Prop where
  options : List.Forall₂ (Node.IsArgument source .option) s.before before
  target : v.IsArgument source .variableDefinition s.name
  others : ∀ n ∈ after, n.kind ≠ .variableDefinition

lemma forall₂_plantAll (htext : ∀ tok ∈ toks, tok.span.text? source = some tok.text)
    (id cursor : Nat) : List.Forall₂ (Node.IsArgument source kind) toks
      (plantAll id cursor (toks.map (Token.argument kind))) := by
  induction toks generalizing id cursor with
  | nil => exact .nil
  | cons tok toks ih =>
    obtain ⟨htok, htoks⟩ := List.forall_mem_cons.1 htext
    refine .cons ⟨rfl, rfl, rfl, ?_⟩ (ih htoks _ _)
    show (tok.span.text? source).getD [] = tok.text
    rw [htok, Option.getD_some]

lemma kind_of_mem_plain (id cursor : Nat) :
    ∀ n ∈ plantAll id cursor (toks.map Token.plain), n.kind ≠ .variableDefinition := by
  induction toks generalizing id cursor with
  | nil => exact List.forall_mem_nil _
  | cons tok toks ih =>
    refine List.forall_mem_cons.2 ⟨?_, ih _ _⟩
    show wordKind tok.text ≠ .variableDefinition
    unfold wordKind
    split <;> decide

/-- The nodes of the arguments: if there is a setting, its variable is marked among them. -/
theorem marks_plantAll (htext : ∀ tok ∈ args, tok.span.text? source = some tok.text)
    (id cursor : Nat) :
    (setting? args = none → ∀ n ∈ plantAll id cursor (argumentPhrases .searching args),
      n.kind ≠ .variableDefinition) ∧
    ∀ s, setting? args = some s → ∃ before v after,
      plantAll id cursor (argumentPhrases .searching args) = before ++ v :: after ∧
      s.Marks source before v after := by
  obtain ⟨hnone, hsome⟩ := argumentPhrases_searching args
  refine ⟨fun h => ?_, fun s hs => ?_⟩
  · rw [hnone h]
    exact kind_of_mem_plain id cursor
  · obtain ⟨rest, rfl, hphrases⟩ := hsome s hs
    have hname : s.name.span.text? source = some s.name.text := htext _ (by simp)
    rw [hphrases, plantAll_append, plantAll]
    refine ⟨_, _, _, rfl, forall₂_plantAll (fun tok htok => htext tok (by simp [htok])) _ _,
      ⟨rfl, rfl, rfl, ?_⟩, kind_of_mem_plain _ _⟩
    show (s.name.span.text? source).getD [] = s.name.text
    rw [hname, Option.getD_some]

lemma kind_scan (scan : DefinitionScan) (w : Text) : (scan.step w).1 = .word ∨
    (scan.step w).1 = .option ∨ (scan.step w).1 = .variableDefinition := by
  have hplain : wordKind w = .word ∨ wordKind w = .option ∨ wordKind w = .variableDefinition := by
    unfold wordKind
    split <;> simp
  unfold DefinitionScan.step
  split <;> first | exact hplain | simp

lemma mem_plantAll_arguments (args : List Token) (scan : DefinitionScan) (id cursor : Nat) :
    ∀ n ∈ plantAll id cursor (argumentPhrases scan args), n.children = [] ∧
      (n.kind = .word ∨ n.kind = .option ∨ n.kind = .variableDefinition) := by
  induction args generalizing scan id cursor with
  | nil => exact List.forall_mem_nil _
  | cons tok args ih =>
    exact List.forall_mem_cons.2 ⟨⟨rfl, kind_scan scan tok.text⟩, ih _ _ _⟩

end Nodes

/-! ## Sources -/

lemma tokens_set : tokens "set".toList = [⟨.word, "set".toList, 0⟩] := by decide +kernel

/-- The word `set`. -/
def setWord : Spelling := .word "set".toList tokens_set

/-- A command `set` with some words behind it. -/
def setSource (args : List Spelling) : Text := "set ".toList ++ Spelling.printed args

/-- The node of the command. -/
def setNode (args : List Spelling) : Node :=
  (setPhrase (argumentPhrases .searching (Spelling.placed 4 args))).plant 1 0

/-- The node of its name. -/
def setName : Node := ⟨2, .word, some .name, ⟨0, 3⟩, []⟩

/-- The nodes of its arguments. -/
def setArguments (args : List Spelling) : List Node :=
  plantAll 3 3 (argumentPhrases .searching (Spelling.placed 4 args))

section Source

open Spelling

variable {args : List Spelling}

lemma children_setNode (args : List Spelling) :
    (setNode args).children = setName :: setArguments args := rfl

lemma tokens_setSource (hwords : ∀ x ∈ args, x.kind = .word) :
    tokens (setSource args) = ⟨.word, "set".toList, 0⟩ :: placed 4 args := by
  rcases args with _ | ⟨x, args⟩
  · decide +kernel
  · have hchain : (setWord :: x :: args).IsChain Precedes := by
      refine (List.pairwise_of_forall_mem_list fun y hy z _ hcomment => ?_).isChain
      have hword : y.kind = .word := by
        rcases List.mem_cons.1 hy with rfl | hy
        · rfl
        · exact hwords y hy
      rw [hword] at hcomment
      cases hcomment
    exact tokensFrom_printed hchain 0

lemma kind_of_mem_placed (hwords : ∀ x ∈ args, x.kind = .word) (offset : Nat) :
    ∀ tok ∈ placed offset args, tok.kind = .word := by
  intro tok htok
  have hmem : (tok.kind, tok.text) ∈ args.map fun x => (x.kind, x.text) := by
    rw [← map_placed args offset]
    exact List.mem_map_of_mem htok
  obtain ⟨x, hx, heq⟩ := List.mem_map.1 hmem
  exact (congrArg Prod.fst heq).symm.trans (hwords x hx)

lemma text?_of_mem_placed (hwords : ∀ x ∈ args, x.kind = .word) :
    ∀ tok ∈ placed 4 args, tok.span.text? (setSource args) = some tok.text := by
  intro tok htok
  refine text?_of_mem_tokens ?_
  rw [tokens_setSource hwords]
  exact List.mem_cons_of_mem _ htok

/-- The tree of a command `set` has nothing but the nodes of the command and of its words. -/
theorem rootOf_setSource (hwords : ∀ x ∈ args, x.kind = .word) :
    (rootOf (setSource args)).kind = .program ∧
      (rootOf (setSource args)).children = [setNode args] := by
  have hplaced := kind_of_mem_placed hwords 4
  have hterminals : terminals (setSource args) =
      ⟨.word "set".toList, ⟨0, 3⟩⟩ :: (placed 4 args).map Token.terminal := by
    rw [terminals, tokens_setSource hwords]
    rfl
  have heffect : NestingScan.initial.effect (.word "set".toList) = .same := by decide +kernel
  have hnext : NestingScan.initial.next (.word "set".toList) = ⟨false, false⟩ := by decide +kernel
  have hlimited : limited (setSource args) =
      ⟨.word "set".toList, ⟨0, 3⟩⟩ :: (placed 4 args).map Token.terminal := by
    rw [limited, hterminals, limitNesting]
    simp only [limitFrom, heffect, hnext, limitFrom_words hplaced]
  rw [rootOf, hlimited, parseTerminals_set hplaced]
  exact ⟨rfl, rfl⟩

end Source

end FishScript
