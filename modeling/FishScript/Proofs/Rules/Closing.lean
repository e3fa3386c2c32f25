/-
# How many `end`s are missing

The missing `end`s that are reported for a source are as many as have to be written behind it. With
fewer lines that hold an `end` the rest stays reported, and with more the surplus is; whatever else
is wrong with the blocks of the source is reported as before (`diagnose_append_ends`).

The source and the longer one are different texts, so the lines have to be recognised, let through
by the nesting limit, and read by the parser from whatever state it is left in; and what is wrong
with the nodes of the source must not depend on which of the two texts they are read from.
-/
import Mathlib
import FishScript.Proofs.Grammar.Closing
import FishScript.Proofs.Grammar.Limit
import FishScript.Proofs.Program.Spelling
import FishScript.Proofs.Rules.Accounting
import FishScript.Proofs.Token.Appending

namespace FishScript

/-! ## Faults seen from another source -/

/-- The keywords among some leaves are spelled alike in two sources. -/
def SpelledAlike (source source' : Text) (ls : List Leaf) : Prop :=
  ∀ l ∈ ls, l.kind = .keyword → l.span.text? source = l.span.text? source'

section Spelling

variable {source source' : Text} {c : Code}

lemma SpelledAlike.isKeyword {p : Phrase} (h : SpelledAlike source source' p.leaves) (w : Text) :
    p.part.isKeyword source w = p.part.isKeyword source' w := by
  cases p with
  | node kind field children => simp [Phrase.part, Part.isKeyword]
  | leaf kind field span =>
    by_cases hk : kind = .keyword
    · have htext : span.text? source = span.text? source' := h _ (List.mem_singleton_self _) hk
      simp only [Phrase.part, Part.isKeyword, Option.bind_some, htext]
    · have hne : (kind == NodeKind.keyword) = false := by simpa using hk
      simp only [Phrase.part, Part.isKeyword, hne, Bool.false_and]

lemma SpelledAlike.fault? {ps : List Phrase} (h : SpelledAlike source source' (leavesOf ps))
    (kind : NodeKind) : FishScript.fault? source kind (ps.map Phrase.part) =
      FishScript.fault? source' kind (ps.map Phrase.part) := by
  cases ps with
  | nil => rfl
  | cons p ps =>
    have hp : SpelledAlike source source' p.leaves := fun l hl =>
      h l (List.mem_append_left _ hl)
    simp only [FishScript.fault?, isConstruct, List.map_cons, List.head?_cons, Option.any_some,
      Part.isEnd, hp.isKeyword]

mutual

theorem Phrase.faults_congr : ∀ (p : Phrase), SpelledAlike source source' p.leaves →
    p.faults source c = p.faults source' c
  | .leaf kind field span, _ => rfl
  | .node kind field children, h => by
    rw [Phrase.faults, Phrase.faults, faultCount, faultCount, SpelledAlike.fault? h,
      faultsOf_congr children h]

theorem faultsOf_congr : ∀ (ps : List Phrase), SpelledAlike source source' (leavesOf ps) →
    faultsOf source c ps = faultsOf source' c ps
  | [], _ => rfl
  | p :: ps, h => by
    rw [faultsOf, faultsOf, p.faults_congr fun l hl => h l (List.mem_append_left _ hl),
      faultsOf_congr ps fun l hl => h l (List.mem_append_right _ hl)]

end

lemma parseTerminals_faults_congr {ts : List Terminal} (h : ∀ t ∈ ts, t.Reads source)
    (h' : ∀ t ∈ ts, t.Reads source') :
    (parseTerminals ts).faults source c = (parseTerminals ts).faults source' c := by
  obtain ⟨children, heq, -, hleaves⟩ := parseTerminals_leaves ts
  refine Phrase.faults_congr _ fun l hl hk => ?_
  rw [heq] at hl
  change l ∈ leavesOf children at hl
  obtain ⟨t, ht, hspan, hkind⟩ := exists_of_forall₂ hleaves l hl
  obtain ⟨w, hw⟩ : ∃ w, t.symbol = .word w := by
    rw [hk] at hkind
    cases hs : t.symbol with
    | word w => exact ⟨w, rfl⟩
    | _ => simp [hs, Symbol.leafKinds] at hkind
  rw [hspan, h t ht w hw, h' t ht w hw]

end Spelling

/-! ## Counting diagnostics -/

lemma parseTerminals_faults {source : Text} {c : Code} (ts : List Terminal) :
    (parseTerminals ts).faults source c = (ts.foldl Stack.step .initial).total source c :=
  Stack.faults_close (Stack.filledUpTo_foldl ts Stack.grounded_initial Stack.filledUpTo_initial)

/-- The structural diagnostics of a source are as many as the faults of its phrase. -/
theorem diagnose_count (source : Text) {document : Document} (hd : document.check = .ok ()) :
    ∃ ds, (Tree.mk source [rootOf source]).diagnose document = .ok ds ∧
      ∀ c : Code, c.isStructural = true → ds.countP (·.code == c) =
        (parseTerminals (limited source)).faults source c := by
  obtain ⟨ds, hds, -, hreported⟩ := diagnose_reported source hd
  refine ⟨ds, hds, fun c hc => ?_⟩
  obtain ⟨children, heq, hfull, -⟩ := parseTerminals_leaves (limited source)
  rw [List.countP_eq_length_filter, ← (forall₂_faulty hc hreported).length_eq, rootOf, heq,
    Phrase.plant, Node.preorder, faulty_cons, List.length_append, length_faulty_singleton,
    length_faulty_plantAll children _ _ hfull, Phrase.faults, Node.parts, map_part_plantAll hfull]

/-! ## Behind the nesting limit -/

lemma limitFrom_endLines {m : Nat} : ∀ {ts : List Terminal} {n : NestingScan} {depth : Nat},
    ts.map Terminal.symbol = endLines m → limitFrom n depth none ts = ts := by
  induction m with
  | zero =>
    intro ts n depth hts
    obtain rfl := List.map_eq_nil_iff.1 hts
    rfl
  | succ m ih =>
    intro ts n depth hts
    obtain ⟨line, ts, rfl, hline, hts⟩ := List.map_eq_cons_iff.1 hts
    obtain ⟨close, ts, rfl, hclose, hts⟩ := List.map_eq_cons_iff.1 hts
    have hsame : n.effect line.symbol = .same := by
      rw [hline]
      rfl
    have hcloses : (n.next line.symbol).effect close.symbol = .closes := by
      rw [hline, hclose]
      show NestingScan.effect ⟨true, false⟩ (.word "end".toList) = .closes
      decide +kernel
    simp only [limitFrom, hsame, hcloses]
    rw [ih hts]

/-! ## Lines behind a source -/

/-- The text of some lines that hold an `end` each, each line after a line feed. -/
def endText (m : Nat) : Text := (List.replicate m "\nend".toList).flatten

lemma endText_succ (m : Nat) : endText (m + 1) = "\n".toList ++ ("end".toList ++ endText m) := by
  rw [endText, List.replicate_succ, List.flatten_cons]
  rfl

lemma unquoted_endText (m : Nat) : Unquoted (endText m) := by
  constructor
  · intro c hc
    cases m with
    | zero => cases hc
    | succ m =>
      rw [endText_succ] at hc
      cases hc
      rfl
  · induction m with
    | zero => exact fun c hc => by cases hc
    | succ m ih =>
      intro c hc
      have hc' : c ∈ "\nend".toList ∨ c ∈ endText m := List.mem_append.1 hc
      obtain hc' | hc' := hc'
      · have hchar : c ∈ ['\n', 'e', 'n', 'd'] := hc'
        simp only [List.mem_cons, List.not_mem_nil, or_false] at hchar
        obtain rfl | rfl | rfl | rfl := hchar <;> decide
      · exact ih c hc'

lemma symbols_endText (m offset : Nat) :
    ((tokensFrom 0 offset (endText m)).map Token.terminal).map Terminal.symbol = endLines m := by
  induction m generalizing offset with
  | zero => rfl
  | succ m ih =>
    have hstops : Stops (endText m) := fun c hc => .inr ((unquoted_endText m).line c hc)
    have hline : munch ("\n".toList ++ ("end".toList ++ endText m)) = ⟨some .newline, 1⟩ := rfl
    have hword : munch ("end".toList ++ endText m) = ⟨some .word, 3⟩ :=
      Program.Word.munch_append ⟨"end".toList, by decide +kernel, by decide⟩ hstops
    rw [endText_succ, tokensFrom_append (by decide) hline, tokensFrom_append (by decide) hword,
      List.map_cons, List.map_cons, List.map_cons, List.map_cons, ih]
    rfl

lemma terminals_append_endText {source : Text} (hreturn : source.getLast? ≠ some '\r')
    (hlexes : ∀ tok ∈ tokens source, tok.kind ≠ .unexpected) (m : Nat) :
    ∃ ts, terminals (source ++ endText m) = terminals source ++ ts ∧
      ts.map Terminal.symbol = endLines m := by
  have htokens : tokens (source ++ endText m) =
      tokens source ++ tokensFrom 0 (0 + source.byteLength) (endText m) :=
    tokensFrom_append_line (unquoted_endText m) (Nat.zero_le _) hreturn hlexes
  refine ⟨_, ?_, symbols_endText m (0 + source.byteLength)⟩
  rw [terminals, htokens, List.map_append]
  rfl

lemma limited_append_endText {source : Text} (hreturn : source.getLast? ≠ some '\r')
    (hlexes : ∀ tok ∈ tokens source, tok.kind ≠ .unexpected)
    (hlimit : limitNesting (terminals source) = terminals source) (m : Nat) :
    ∃ ts, limited (source ++ endText m) = limited source ++ ts ∧
      ts.map Terminal.symbol = endLines m := by
  obtain ⟨ts, hterminals, hts⟩ := terminals_append_endText hreturn hlexes m
  refine ⟨ts, ?_, hts⟩
  rw [limited, limited, hterminals, limitNesting,
    NestingScan.limitFrom_append (NestingScan.limitNesting_eq_self_iff.1 hlimit),
    limitFrom_endLines hts, hlimit]

/-- The number of `end`s that are missing is the number of those to be added. Of a source whose
tokens are all recognised and none of whose blocks is folded, some more lines with an `end` each
close as many blocks that lack one, the lines left over are reported, and nothing else changes. -/
theorem diagnose_append_ends (source : Text) (hreturn : source.getLast? ≠ some '\r')
    (hlexes : ∀ tok ∈ tokens source, tok.kind ≠ .unexpected)
    (hlimit : limitNesting (terminals source) = terminals source) (m : Nat) :
    ∃ tree ds tree' ds', parse source = .ok tree ∧ tree.diagnose .anonymous = .ok ds ∧
      parse (source ++ (List.replicate m "\nend".toList).flatten) = .ok tree' ∧
      tree'.diagnose .anonymous = .ok ds' ∧
      ds'.countP (·.code == .missingEnd) = ds.countP (·.code == .missingEnd) - m ∧
      ds'.countP (·.code == .extraEnd) =
        ds.countP (·.code == .extraEnd) + (m - ds.countP (·.code == .missingEnd)) ∧
      ds'.countP (·.code == .syntaxError) = ds.countP (·.code == .syntaxError) := by
  have hcheck : Document.anonymous.check = .ok () := rfl
  obtain ⟨ds, hds, hcount⟩ := diagnose_count source hcheck
  obtain ⟨ds', hds', hcount'⟩ := diagnose_count (source ++ endText m) hcheck
  refine ⟨_, ds, _, ds', parse_eq source, hds, parse_eq (source ++ endText m), hds', ?_⟩
  obtain ⟨ts, hlimited, hts⟩ := limited_append_endText hreturn hlexes hlimit m
  have hknown : ∀ t ∈ limited (source ++ endText m), t.Reads (source ++ endText m) ∧
      t.Known (garbagePlaces (source ++ endText m)) := fun t ht => known_of_mem_limited ht
  rw [hlimited] at hknown
  obtain ⟨hsteady, hsealed⟩ := Stack.sealed_run fun t ht => hknown t (List.mem_append_left _ ht)
  -- the faults of the source do not change when it is read as a part of the longer one
  have htotal : ∀ c : Code, c.isStructural = true → ds.countP (·.code == c) =
      ((limited source).foldl Stack.step .initial).total (source ++ endText m) c := by
    intro c hc
    rw [hcount c hc, ← parseTerminals_faults]
    exact parseTerminals_faults_congr (fun t ht => (known_of_mem_limited ht).1)
      fun t ht => (hknown t (List.mem_append_left _ ht)).1
  have htotal' : ∀ c : Code, c.isStructural = true → ds'.countP (·.code == c) =
      (ts.foldl Stack.step ((limited source).foldl Stack.step .initial)).total
        (source ++ endText m) c := by
    intro c hc
    rw [hcount' c hc, parseTerminals_faults, hlimited, List.foldl_append]
  rw [htotal _ rfl, htotal _ rfl, htotal _ rfl, htotal' _ rfl, htotal' _ rfl, htotal' _ rfl]
  exact hsteady.endLines hsealed hts fun t ht => (hknown t (List.mem_append_right _ ht)).1

/-- A source that ends inside a condition inside a conditional, with a comment last. -/
def dangling : Text := "if a &&\nwhile b # c".toList

/-- Two of three lines behind that source close its blocks, and one is reported. -/
theorem diagnose_append_ends_dangling :
    dangling.getLast? ≠ some '\r' ∧ (∀ tok ∈ tokens dangling, tok.kind ≠ .unexpected) ∧
    limitNesting (terminals dangling) = terminals dangling ∧
    ∃ tree ds tree' ds', parse dangling = .ok tree ∧ tree.diagnose .anonymous = .ok ds ∧
      parse (dangling ++ (List.replicate 3 "\nend".toList).flatten) = .ok tree' ∧
      tree'.diagnose .anonymous = .ok ds' ∧
      ds.countP (·.code == .missingEnd) = 2 ∧ ds'.countP (·.code == .missingEnd) = 0 ∧
      ds'.countP (·.code == .extraEnd) = ds.countP (·.code == .extraEnd) + 1 ∧
      ds'.countP (·.code == .syntaxError) = ds.countP (·.code == .syntaxError) := by
  have hreturn : dangling.getLast? ≠ some '\r' := by decide +kernel
  have hlexes : ∀ tok ∈ tokens dangling, tok.kind ≠ .unexpected := by decide +kernel
  have hlimit : limitNesting (terminals dangling) = terminals dangling := by decide +kernel
  obtain ⟨tree, ds, tree', ds', hparse, hds, hparse', hds', hmissing, hextra, hwrong⟩ :=
    diagnose_append_ends dangling hreturn hlexes hlimit 3
  have htree : tree = ⟨dangling, [rootOf dangling]⟩ := by
    rw [parse_eq] at hparse
    exact (Except.ok.inj hparse).symm
  have htwo : ((Tree.mk dangling [rootOf dangling]).diagnose .anonymous).toOption.map
      (·.countP (·.code == .missingEnd)) = some 2 := by decide +kernel
  rw [← htree, hds] at htwo
  have hcount : ds.countP (·.code == .missingEnd) = 2 := Option.some_inj.1 htwo
  rw [hcount] at hmissing hextra
  exact ⟨hreturn, hlexes, hlimit, tree, ds, tree', ds', hparse, hds, hparse', hds', hcount,
    hmissing, hextra, hwrong⟩

end FishScript
