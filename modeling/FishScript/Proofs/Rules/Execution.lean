/-
# What is reported after a return never runs

The rules know nothing of how a script runs. Here is what they are measured by: an execution of
statements in which every command and every condition may succeed or fail, and in which the same
choices are open again on every pass through a loop. Executions are relations and not functions.
They need not come to an end; one that is looked at in between is `unfinished`.

A statement that the rules call always returning never lets an execution pass
(`RunsAll.not_passed`), and whatever an execution starts is a statement of the function itself or
stands in a node that is no function (`RunsAll.started`). In the tree of a source no node stands
in two places, so a reported statement is never started.
-/
import Mathlib
import FishScript.Proofs.Tree.Sites
import FishScript.Rules.Reachability

namespace FishScript

/-! ## Executions -/

/-- How an execution leaves what it runs. -/
inductive Outcome
  /-- It came to the end, with some status. -/
  | passed
  /-- A return ended the function. -/
  | returned
  /-- It has not come to the end, and maybe never will. -/
  | unfinished
deriving DecidableEq, Repr

namespace NodeKind

/-- A node of the kind runs as a whole: it is a command or a pipeline, or at least nothing that
runs statements. -/
def isSimple : NodeKind → Bool
  | .returnStatement | .conditionalExecution | .functionDefinition | .ifStatement
  | .switchStatement | .forStatement | .whileStatement | .beginStatement | .error => false
  | _ => true

end NodeKind

namespace Node

/-- The parts of the condition of a conditional or a loop. -/
def conditions (n : Node) : List Node := n.children.filter (·.field == some .condition)

/-- What connectors or conjunctions join to the statement before them. -/
def operands (n : Node) : List Node := n.children.filter isStatement

/-- The branches of a conditional: itself and its clauses. -/
def branches (n : Node) : List Node :=
  n :: n.children.filter fun c => c.kind == .elseIfClause || c.kind == .elseClause

end Node

mutual

/-- An execution of a statement, or of a part of a condition, with the nodes it starts. -/
inductive Node.Runs : Node → List Node → Outcome → Prop
  /-- Anything may be started and not be finished. -/
  | start {n : Node} : n.Runs [n] .unfinished
  /-- A command or a pipeline succeeds or fails. -/
  | simple {n : Node} (hk : n.kind.isSimple = true) : n.Runs [n] .passed
  /-- A definition of a function runs nothing of it. -/
  | define {n : Node} (hk : n.kind = .functionDefinition) : n.Runs [n] .passed
  /-- A return ends the function. -/
  | leave {n : Node} (hk : n.kind = .returnStatement) : n.Runs [n] .returned
  /-- What depends on the statement before it may be skipped. -/
  | skip {n : Node} (hk : n.kind = .conditionalExecution) : n.Runs [] .passed
  /-- Or it runs. -/
  | join {n : Node} {tr : List Node} {o : Outcome} (hk : n.kind = .conditionalExecution)
      (hr : RunsAll n.operands tr o) : n.Runs (n :: tr) o
  /-- A block of its own runs its body. -/
  | block {n : Node} {tr : List Node} {o : Outcome} (hk : n.kind = .beginStatement)
      (hr : RunsAll n.bodyStatements tr o) : n.Runs (n :: tr) o
  /-- A conditional runs one of its branches. -/
  | conditional {n : Node} {tr : List Node} {o : Outcome} (hk : n.kind = .ifStatement)
      (hr : RunsBranches n.branches tr o) : n.Runs (n :: tr) o
  /-- A choice may run none of its cases. -/
  | noCase {n : Node} (hk : n.kind = .switchStatement) : n.Runs [n] .passed
  /-- Or it runs one of them. -/
  | oneCase {n c : Node} {tr : List Node} {o : Outcome} (hk : n.kind = .switchStatement)
      (hc : c ∈ n.children) (hkc : c.kind = .caseClause) (hr : RunsAll c.bodyStatements tr o) :
      n.Runs (n :: tr) o
  /-- A loop runs its body any number of times. -/
  | loop {n : Node} {tr : List Node} {o : Outcome}
      (hk : n.kind = .forStatement ∨ n.kind = .whileStatement) (hr : n.Loops tr o) :
      n.Runs (n :: tr) o

/-- An execution of statements one after the other. -/
inductive RunsAll : List Node → List Node → Outcome → Prop
  /-- There is nothing to run. -/
  | nil : RunsAll [] [] .passed
  /-- The first one is passed. -/
  | cons {n : Node} {rest tr tr' : List Node} {o : Outcome} (hn : n.Runs tr .passed)
      (hr : RunsAll rest tr' o) : RunsAll (n :: rest) (tr ++ tr') o
  /-- The first one is not passed. -/
  | stop {n : Node} {rest tr : List Node} {o : Outcome} (hn : n.Runs tr o) (ho : o ≠ .passed) :
      RunsAll (n :: rest) tr o

/-- An execution of the first of some branches whose condition succeeds. -/
inductive RunsBranches : List Node → List Node → Outcome → Prop
  /-- There is no branch left. -/
  | nil : RunsBranches [] [] .passed
  /-- The condition succeeds. The last branch has none and is always taken. -/
  | take {n : Node} {rest tr tr' : List Node} {o : Outcome} (hc : RunsAll n.conditions tr .passed)
      (hb : RunsAll n.bodyStatements tr' o) : RunsBranches (n :: rest) (tr ++ tr') o
  /-- The condition fails. -/
  | next {n : Node} {rest tr tr' : List Node} {o : Outcome} (hk : n.kind ≠ .elseClause)
      (hc : RunsAll n.conditions tr .passed) (hr : RunsBranches rest tr' o) :
      RunsBranches (n :: rest) (tr ++ tr') o
  /-- The condition is not passed. -/
  | stop {n : Node} {rest tr : List Node} {o : Outcome} (hc : RunsAll n.conditions tr o)
      (ho : o ≠ .passed) : RunsBranches (n :: rest) tr o

/-- An execution of a loop, from the start of one of its passes on. -/
inductive Node.Loops : Node → List Node → Outcome → Prop
  /-- There is no further pass. -/
  | done {n : Node} {tr : List Node} (hc : RunsAll n.conditions tr .passed) : n.Loops tr .passed
  /-- The condition is not passed. -/
  | stop {n : Node} {tr : List Node} {o : Outcome} (hc : RunsAll n.conditions tr o)
      (ho : o ≠ .passed) : n.Loops tr o
  /-- The body is not passed. -/
  | last {n : Node} {tr tr' : List Node} {o : Outcome} (hc : RunsAll n.conditions tr .passed)
      (hb : RunsAll n.bodyStatements tr' o) (ho : o ≠ .passed) : n.Loops (tr ++ tr') o
  /-- The body is passed, and the loop goes on. -/
  | again {n : Node} {tr tr' tr'' : List Node} {o : Outcome}
      (hc : RunsAll n.conditions tr .passed) (hb : RunsAll n.bodyStatements tr' .passed)
      (hl : n.Loops tr'' o) : n.Loops (tr ++ (tr' ++ tr'')) o

end

/-- An execution of the body of a function. -/
def Node.Executes (f : Node) (started : List Node) (outcome : Outcome) : Prop :=
  RunsAll f.bodyStatements started outcome

/-! ## Statements that always return -/

lemma someReturns_eq_true {ns : List Node} :
    someReturns ns = true ↔ ∃ n ∈ ns, n.isStatement = true ∧ n.alwaysReturns = true := by
  induction ns with
  | nil => simp [someReturns]
  | cons n ns ih =>
    rw [someReturns, Bool.or_eq_true, Bool.and_eq_true, ih, List.exists_mem_cons_iff]

lemma clausesReturn_eq_true {ns : List Node} :
    clausesReturn ns = true ↔
      ∀ n ∈ ns, n.kind = .elseIfClause ∨ n.kind = .elseClause → someReturns n.children = true := by
  induction ns with
  | nil => simp [clausesReturn]
  | cons n ns ih =>
    obtain ⟨id, kind, field, span, children⟩ := n
    rw [clausesReturn, Bool.and_eq_true, ih, List.forall_mem_cons]
    by_cases hk : kind = .elseIfClause ∨ kind = .elseClause
    · simp [hk]
    · simp [hk]

/-- A node whose children include an always returning statement, and which holds statements, has
it in its body. -/
lemma Node.exists_body_of_someReturns {n : Node} (hk : n.kind.holdsStatements = true)
    (h : someReturns n.children = true) : ∃ m ∈ n.bodyStatements, m.alwaysReturns = true := by
  obtain ⟨m, hm, hs, hr⟩ := someReturns_eq_true.1 h
  refine ⟨m, ?_, hr⟩
  rw [bodyStatements, if_pos hk]
  exact List.mem_filter.2 ⟨hm, hs⟩

/-- What always returns is a return, or a conditional with a last branch each of whose branches
has an always returning statement in its body. -/
lemma Node.alwaysReturns_cases {n : Node} (h : n.alwaysReturns = true) :
    n.kind = .returnStatement ∨ n.kind = .ifStatement ∧
      (∃ b ∈ n.branches, b.kind = .elseClause) ∧
      ∀ b ∈ n.branches, ∃ m ∈ b.bodyStatements, m.alwaysReturns = true := by
  obtain ⟨id, kind, field, span, children⟩ := n
  unfold alwaysReturns at h
  split at h
  case h_1 => exact .inl rfl
  case h_2 =>
    simp only [Bool.and_eq_true, List.any_eq_true, beq_iff_eq] at h
    obtain ⟨⟨⟨c, hc, hkc⟩, hbody⟩, hclauses⟩ := h
    refine .inr ⟨rfl, ⟨c, ?_, hkc⟩, ?_⟩
    · exact List.mem_cons_of_mem _ (List.mem_filter.2 ⟨hc, by simp [hkc]⟩)
    · intro b hb
      rcases List.mem_cons.1 hb with rfl | hb
      · exact exists_body_of_someReturns rfl hbody
      · obtain ⟨hb, hkb⟩ := List.mem_filter.1 hb
        simp only [Bool.or_eq_true, beq_iff_eq] at hkb
        refine exists_body_of_someReturns ?_ (clausesReturn_eq_true.1 hclauses b hb hkb)
        obtain hkb | hkb := hkb <;> rw [hkb] <;> rfl
  case h_3 => cases h

mutual

/-- No execution passes a statement that always returns. -/
theorem Node.Runs.not_passed : ∀ {n : Node} {tr : List Node} {o : Outcome}, n.Runs tr o →
    n.alwaysReturns = true → o ≠ .passed
  | _, _, _, .start, _ => by simp
  | _, _, _, .leave _, _ => by simp
  | n, _, _, .conditional hk hr, h => by
    obtain hk' | ⟨-, helse, hall⟩ := Node.alwaysReturns_cases h
    · rw [hk] at hk'
      cases hk'
    · exact hr.not_passed helse hall
  | _, _, _, .simple hk, h | _, _, _, .define hk, h | _, _, _, .skip hk, h
  | _, _, _, .join hk _, h | _, _, _, .block hk _, h | _, _, _, .noCase hk, h
  | _, _, _, .oneCase hk _ _ _, h | _, _, _, .loop hk _, h => by
    -- the kind is neither that of a return nor that of a conditional
    obtain hk' | ⟨hk', -⟩ := Node.alwaysReturns_cases h <;> simp [hk', NodeKind.isSimple] at hk

/-- No execution passes statements one of which always returns. -/
theorem RunsAll.not_passed : ∀ {ns tr : List Node} {o : Outcome}, RunsAll ns tr o →
    (∃ n ∈ ns, n.alwaysReturns = true) → o ≠ .passed
  | _, _, _, .nil, h => by simp at h
  | _, _, _, .stop _ ho, _ => ho
  | _, _, _, .cons hn hr, h => by
    rw [List.exists_mem_cons_iff] at h
    obtain h | h := h
    · exact absurd rfl (hn.not_passed h)
    · exact hr.not_passed h

/-- No execution passes branches, with a last one that is always taken, if each has an always
returning statement in its body. -/
theorem RunsBranches.not_passed : ∀ {bs tr : List Node} {o : Outcome}, RunsBranches bs tr o →
    (∃ b ∈ bs, b.kind = .elseClause) →
    (∀ b ∈ bs, ∃ m ∈ b.bodyStatements, m.alwaysReturns = true) → o ≠ .passed
  | _, _, _, .nil, helse, _ => by simp at helse
  | _, _, _, .stop _ ho, _, _ => ho
  | _, _, _, .take _ hb, _, hall => hb.not_passed (hall _ List.mem_cons_self)
  | _, _, _, .next hk _ hr, helse, hall => by
    rw [List.exists_mem_cons_iff] at helse
    exact hr.not_passed (helse.resolve_left hk) fun b hb => hall b (List.mem_cons_of_mem _ hb)

end

/-! ## What an execution starts -/

/-- At the node or below it, and not in a nested function, the node `m` is a child. -/
def Node.Holds (n m : Node) : Prop :=
  ∃ p ∈ n.preorder, p.kind ≠ .functionDefinition ∧ m ∈ p.children

/-- The node `m` is among statements, and none before it always returns. -/
def Reached (ns : List Node) (m : Node) : Prop :=
  ∃ before after, ns = before ++ m :: after ∧ ∀ b ∈ before, b.alwaysReturns = false

lemma Reached.mem {ns : List Node} {m : Node} (h : Reached ns m) : m ∈ ns := by
  obtain ⟨before, after, rfl, -⟩ := h
  exact List.mem_append_right _ List.mem_cons_self

namespace Node

variable {n m c : Node}

lemma holds_of_child (hk : n.kind ≠ .functionDefinition) (hm : m ∈ n.children) : n.Holds m :=
  ⟨n, n.mem_preorder_self, hk, hm⟩

lemma Holds.of_child (hc : c ∈ n.children) (h : c.Holds m) : n.Holds m := by
  obtain ⟨p, hp, hk, hm⟩ := h
  exact ⟨p, mem_preorder_of_child hc hp, hk, hm⟩

/-- A node that is no function holds whatever an execution of some of its children starts. -/
lemma holds_of_started {ns : List Node} (hk : n.kind ≠ .functionDefinition)
    (hns : ∀ c ∈ ns, c ∈ n.children) (h : Reached ns m ∨ ∃ c ∈ ns, c.Holds m) : n.Holds m := by
  obtain h | ⟨c, hc, h⟩ := h
  · exact holds_of_child hk (hns m h.mem)
  · exact h.of_child (hns c hc)

lemma conditions_subset : ∀ c ∈ n.conditions, c ∈ n.children :=
  fun _ hc => (List.mem_filter.1 hc).1

lemma operands_subset : ∀ c ∈ n.operands, c ∈ n.children :=
  fun _ hc => (List.mem_filter.1 hc).1

lemma bodyStatements_subset : ∀ c ∈ n.bodyStatements, c ∈ n.children := by
  intro c hc
  rw [bodyStatements] at hc
  split at hc
  · exact (List.mem_filter.1 hc).1
  · cases hc

lemma branches_kind (hk : n.kind = .ifStatement) :
    ∀ b ∈ n.branches, b.kind ≠ .functionDefinition := by
  intro b hb
  rcases List.mem_cons.1 hb with rfl | hb
  · simp [hk]
  · have hclause := (List.mem_filter.1 hb).2
    simp only [Bool.or_eq_true, beq_iff_eq] at hclause
    obtain h | h := hclause <;> simp [h]

lemma Holds.of_branch {b : Node} (hb : b ∈ n.branches) (h : b.Holds m) : n.Holds m := by
  rcases List.mem_cons.1 hb with rfl | hb
  · exact h
  · exact h.of_child (List.mem_filter.1 hb).1

end Node

mutual

/-- An execution of a statement starts the statement and nodes that it holds. -/
theorem Node.Runs.started : ∀ {n : Node} {tr : List Node} {o : Outcome}, n.Runs tr o →
    ∀ m ∈ tr, m = n ∨ n.Holds m
  | _, _, _, .start, m, hm | _, _, _, .simple _, m, hm | _, _, _, .define _, m, hm
  | _, _, _, .leave _, m, hm | _, _, _, .noCase _, m, hm => .inl (List.mem_singleton.1 hm)
  | _, _, _, .skip _, m, hm => by cases hm
  | n, _, _, .join hk hr, m, hm => by
    refine (List.mem_cons.1 hm).imp_right fun hm => ?_
    exact Node.holds_of_started (by simp [hk]) Node.operands_subset (hr.started m hm)
  | n, _, _, .block hk hr, m, hm => by
    refine (List.mem_cons.1 hm).imp_right fun hm => ?_
    exact Node.holds_of_started (by simp [hk]) Node.bodyStatements_subset (hr.started m hm)
  | n, _, _, .conditional hk hr, m, hm => by
    refine (List.mem_cons.1 hm).imp_right fun hm => ?_
    obtain ⟨b, hb, h⟩ := hr.started (Node.branches_kind hk) m hm
    exact h.of_branch hb
  | n, _, _, .oneCase hk hc hkc hr, m, hm => by
    refine (List.mem_cons.1 hm).imp_right fun hm => .of_child hc ?_
    exact Node.holds_of_started (by simp [hkc]) Node.bodyStatements_subset (hr.started m hm)
  | n, _, _, .loop hk hr, m, hm => by
    refine (List.mem_cons.1 hm).imp_right fun hm => hr.started ?_ m hm
    obtain hk | hk := hk <;> simp [hk]

/-- An execution of statements starts those of them that are reached, and nodes that they hold. -/
theorem RunsAll.started : ∀ {ns tr : List Node} {o : Outcome}, RunsAll ns tr o →
    ∀ m ∈ tr, Reached ns m ∨ ∃ n ∈ ns, n.Holds m
  | _, _, _, .nil, m, hm => by cases hm
  | _, _, _, @RunsAll.stop n rest _ _ hn _, m, hm => by
    obtain rfl | h := hn.started m hm
    · exact .inl ⟨[], rest, rfl, by simp⟩
    · exact .inr ⟨n, List.mem_cons_self, h⟩
  | _, _, _, @RunsAll.cons n rest _ _ _ hn hr, m, hm => by
    rcases List.mem_append.1 hm with hm | hm
    · obtain rfl | h := hn.started m hm
      · exact .inl ⟨[], rest, rfl, by simp⟩
      · exact .inr ⟨n, List.mem_cons_self, h⟩
    · obtain ⟨before, after, rfl, hbefore⟩ | ⟨c, hc, h⟩ := hr.started m hm
      · -- the first statement is passed, so it does not always return
        have hfirst : n.alwaysReturns = false :=
          Bool.eq_false_iff.2 fun h => hn.not_passed h rfl
        exact .inl ⟨n :: before, after, rfl, List.forall_mem_cons.2 ⟨hfirst, hbefore⟩⟩
      · exact .inr ⟨c, List.mem_cons_of_mem n hc, h⟩

/-- An execution of branches starts nodes that they hold. -/
theorem RunsBranches.started : ∀ {bs tr : List Node} {o : Outcome}, RunsBranches bs tr o →
    (∀ b ∈ bs, b.kind ≠ .functionDefinition) → ∀ m ∈ tr, ∃ b ∈ bs, b.Holds m
  | _, _, _, .nil, _, m, hm => by cases hm
  | _, _, _, @RunsBranches.stop n _ _ _ hc _, hbs, m, hm => by
    refine ⟨n, List.mem_cons_self, ?_⟩
    exact Node.holds_of_started (hbs n List.mem_cons_self) Node.conditions_subset (hc.started m hm)
  | _, _, _, @RunsBranches.take n _ _ _ _ hc hb, hbs, m, hm => by
    have hk := hbs n List.mem_cons_self
    refine ⟨n, List.mem_cons_self, ?_⟩
    rcases List.mem_append.1 hm with hm | hm
    · exact Node.holds_of_started hk Node.conditions_subset (hc.started m hm)
    · exact Node.holds_of_started hk Node.bodyStatements_subset (hb.started m hm)
  | _, _, _, @RunsBranches.next n _ _ _ _ _ hc hr, hbs, m, hm => by
    obtain ⟨hk, hrest⟩ := List.forall_mem_cons.1 hbs
    rcases List.mem_append.1 hm with hm | hm
    · exact ⟨n, List.mem_cons_self,
        Node.holds_of_started hk Node.conditions_subset (hc.started m hm)⟩
    · obtain ⟨b, hb, h⟩ := hr.started hrest m hm
      exact ⟨b, List.mem_cons_of_mem n hb, h⟩

/-- An execution of a loop starts nodes that the loop holds. -/
theorem Node.Loops.started : ∀ {n : Node} {tr : List Node} {o : Outcome}, n.Loops tr o →
    n.kind ≠ .functionDefinition → ∀ m ∈ tr, n.Holds m
  | _, _, _, .done hc, hk, m, hm | _, _, _, .stop hc _, hk, m, hm =>
    Node.holds_of_started hk Node.conditions_subset (hc.started m hm)
  | _, _, _, .last hc hb _, hk, m, hm => by
    rcases List.mem_append.1 hm with hm | hm
    · exact Node.holds_of_started hk Node.conditions_subset (hc.started m hm)
    · exact Node.holds_of_started hk Node.bodyStatements_subset (hb.started m hm)
  | _, _, _, .again hc hb hl, hk, m, hm => by
    rcases List.mem_append.1 hm with hm | hm
    · exact Node.holds_of_started hk Node.conditions_subset (hc.started m hm)
    · rcases List.mem_append.1 hm with hm | hm
      · exact Node.holds_of_started hk Node.bodyStatements_subset (hb.started m hm)
      · exact hl.started hk m hm

end

/-! ## Executions that come to an end -/

/-- Some execution of the statement comes to an end. -/
def Node.Finishes (n : Node) : Prop := ∃ tr o, n.Runs tr o ∧ o ≠ .unfinished

lemma exists_runsAll {ns : List Node} (h : ∀ n ∈ ns, n.Finishes) :
    ∃ tr o, RunsAll ns tr o ∧ o ≠ .unfinished := by
  induction ns with
  | nil => exact ⟨[], .passed, .nil, by simp⟩
  | cons n ns ih =>
    obtain ⟨tr, o, hn, ho⟩ := h n List.mem_cons_self
    obtain ⟨tr', o', hns, ho'⟩ := ih fun m hm => h m (List.mem_cons_of_mem n hm)
    by_cases hp : o = .passed
    · subst hp
      exact ⟨_, o', .cons hn hns, ho'⟩
    · exact ⟨tr, o, .stop hn hp, ho⟩

lemma exists_runsBranches {b : Node} (rest : List Node) (h : ∀ c ∈ b.children, c.Finishes) :
    ∃ tr o, RunsBranches (b :: rest) tr o ∧ o ≠ .unfinished := by
  obtain ⟨tr, o, hc, ho⟩ := exists_runsAll fun c hc => h c (Node.conditions_subset c hc)
  obtain ⟨tr', o', hb, ho'⟩ := exists_runsAll fun c hc => h c (Node.bodyStatements_subset c hc)
  by_cases hp : o = .passed
  · subst hp
    exact ⟨_, o', .take hc hb, ho'⟩
  · exact ⟨tr, o, .stop hc hp, ho⟩

namespace Node

lemma exists_loops {n : Node} (h : ∀ c ∈ n.children, c.Finishes) :
    ∃ tr o, n.Loops tr o ∧ o ≠ .unfinished := by
  obtain ⟨tr, o, hc, ho⟩ := exists_runsAll fun c hc => h c (conditions_subset c hc)
  by_cases hp : o = .passed
  · subst hp
    exact ⟨tr, .passed, .done hc, by simp⟩
  · exact ⟨tr, o, .stop hc hp, ho⟩

lemma finishes_of_children {n : Node} (he : n.isError = false)
    (h : ∀ c ∈ n.children, c.Finishes) : n.Finishes := by
  cases hk : n.kind with
  | error => simp [isError, hk] at he
  | returnStatement => exact ⟨_, _, .leave hk, by simp⟩
  | conditionalExecution => exact ⟨_, _, .skip hk, by simp⟩
  | functionDefinition => exact ⟨_, _, .define hk, by simp⟩
  | switchStatement => exact ⟨_, _, .noCase hk, by simp⟩
  | beginStatement =>
    obtain ⟨tr, o, hr, ho⟩ := exists_runsAll fun c hc => h c (bodyStatements_subset c hc)
    exact ⟨_, o, .block hk hr, ho⟩
  | ifStatement =>
    obtain ⟨tr, o, hr, ho⟩ := exists_runsBranches _ h
    exact ⟨_, o, .conditional hk hr, ho⟩
  | forStatement =>
    obtain ⟨tr, o, hr, ho⟩ := exists_loops h
    exact ⟨_, o, .loop (.inl hk) hr, ho⟩
  | whileStatement =>
    obtain ⟨tr, o, hr, ho⟩ := exists_loops h
    exact ⟨_, o, .loop (.inr hk) hr, ho⟩
  | _ => exact ⟨_, _, .simple (by rw [hk]; rfl), by simp⟩

end Node

mutual

/-- Without source that fits nowhere, every statement has an execution that comes to an end. -/
theorem Node.finishes : ∀ (n : Node), (∀ m ∈ n.preorder, m.isError = false) → n.Finishes
  | ⟨id, kind, field, span, children⟩, h => by
    refine Node.finishes_of_children (h _ (Node.mem_preorder_self _)) ?_
    exact finishes_all children fun m hm => h m (List.mem_cons_of_mem _ hm)

theorem finishes_all : ∀ (ns : List Node), (∀ m ∈ preorderAll ns, m.isError = false) →
    ∀ n ∈ ns, n.Finishes
  | n :: ns, h, m, hm => by
    rcases List.mem_cons.1 hm with heq | hm
    · rw [heq]
      exact n.finishes fun m' hm' => h m' (List.mem_append_left _ hm')
    · exact finishes_all ns (fun m' hm' => h m' (List.mem_append_right _ hm')) m hm

end

/-! ## Reports after a return -/

lemma Reachability.afterReturn_eq_nil {source : Text} {s : Site}
    (h : ∀ p, s.parent = some p → p.kind ≠ .functionDefinition) :
    afterReturn source s = [] := by
  rw [afterReturn, if_neg]
  cases hp : s.parent with
  | none => simp
  | some p => simp [h p hp]

lemma afterReturn_eq_nil_of_parent {source : Text} {p : Node} {s : Site}
    (hs : s ∈ (rootOf source).sites none [] []) (hp : p ∈ (rootOf source).preorder)
    (hk : p.kind ≠ .functionDefinition) (hm : s.node ∈ p.children) :
    Reachability.afterReturn source s = [] := by
  obtain ⟨before, after, hchildren⟩ := List.append_of_mem hm
  have heq := site_eq_of_node_eq hs (Node.site_mem_of_child hp hchildren) rfl
  rw [heq]
  refine Reachability.afterReturn_eq_nil fun q hq => ?_
  rwa [← Option.some_inj.1 hq]

/-- In the tree of a source, a statement of a function that an execution can reach is not
reported as unreachable after a return. -/
lemma afterReturn_eq_nil_of_reached {source : Text} {f : Node} {s : Site}
    (hs : s ∈ (rootOf source).sites none [] []) (hf : f ∈ (rootOf source).preorder)
    (hr : Reached f.bodyStatements s.node) : Reachability.afterReturn source s = [] := by
  obtain ⟨before, after, hbody, hbefore⟩ := hr
  rw [Node.bodyStatements] at hbody
  split at hbody
  case isFalse => simp at hbody
  obtain ⟨xs, ys, hchildren, hxs, hys⟩ := List.filter_eq_append_iff.1 hbody
  obtain ⟨us, vs, rfl, hus, -, -⟩ := List.filter_eq_cons_iff.1 hys
  rw [← List.append_assoc] at hchildren
  have heq := site_eq_of_node_eq hs (Node.site_mem_of_child hf hchildren) rfl
  rw [Reachability.afterReturn, if_neg]
  intro h
  simp only [Bool.and_eq_true] at h
  obtain ⟨m, hm, hstatement, hreturns⟩ := someReturns_eq_true.1 h.2
  rw [heq, List.mem_reverse, List.mem_append] at hm
  -- a statement of the body before it is passed, and what else is before it is no statement
  obtain hm | hm := hm
  · have hmem : m ∈ before := by
      rw [← hxs]
      exact List.mem_filter.2 ⟨hm, hstatement⟩
    rw [hbefore m hmem] at hreturns
    cases hreturns
  · exact hus m hm hstatement

/-- Reports after a return are sound. In a source nothing of which fits nowhere, the body of every
function has executions that come to an end, and no execution of it, finished or not, starts a
statement that is reported as unreachable after one that always returns. -/
theorem afterReturn_never_started (source : Text) :
    ∃ root, parse source = .ok ⟨source, [root]⟩ ∧
      ((∀ n ∈ root.preorder, n.isError = false) →
        ∀ f ∈ root.preorder, f.kind = .functionDefinition →
          (∃ started outcome, f.Executes started outcome ∧ outcome ≠ .unfinished) ∧
          ∀ started outcome, f.Executes started outcome →
            ∀ s ∈ root.sites none [] [], Reachability.afterReturn source s ≠ [] →
              s.node ∉ started) := by
  refine ⟨rootOf source, parse_eq source, fun hclean f hf _ => ⟨?_, ?_⟩⟩
  · refine exists_runsAll fun n hn => Node.finishes n fun m hm => hclean m ?_
    exact mem_preorder_trans hf
      (Node.mem_preorder_of_child (Node.bodyStatements_subset n hn) hm)
  · intro started outcome hexec s hs hreport hmem
    refine hreport ?_
    -- a started node is reached in the body itself or stands in a node that is no function
    obtain hreached | ⟨n, hn, p, hp, hk, hm⟩ := hexec.started s.node hmem
    · exact afterReturn_eq_nil_of_reached hs hf hreached
    · refine afterReturn_eq_nil_of_parent hs ?_ hk hm
      exact mem_preorder_trans hf
        (Node.mem_preorder_of_child (Node.bodyStatements_subset n hn) hp)

/-- A function that returns on both branches of a conditional, with a loop before it and a command
after it. -/
def bothBranchesReturn : Text :=
  "function f\nwhile a\nreturn\nend\nif b && c\nreturn\nelse\nd | e\nreturn 1\nend\ng\nend\n".toList

/-- There the command after the conditional is reported and never started. -/
theorem afterReturn_never_started_bothBranchesReturn :
    ∃ root, parse bothBranchesReturn = .ok ⟨bothBranchesReturn, [root]⟩ ∧
      (∀ n ∈ root.preorder, n.isError = false) ∧
      (∃ f ∈ root.preorder, f.kind = .functionDefinition ∧
        (∃ started outcome, f.Executes started outcome ∧ outcome ≠ .unfinished) ∧
        ∃ s ∈ root.sites none [] [],
          Reachability.afterReturn bothBranchesReturn s ≠ [] ∧
          ∀ started outcome, f.Executes started outcome → s.node ∉ started) := by
  obtain ⟨root, hparse, hall⟩ := afterReturn_never_started bothBranchesReturn
  have hroot := eq_rootOf_of_parse hparse
  have hclean : ((rootOf bothBranchesReturn).preorder.all fun n => !n.isError) = true := by
    decide +kernel
  have hfunction : ((rootOf bothBranchesReturn).preorder.any
      fun n => n.kind == .functionDefinition) = true := by decide +kernel
  have hreport : (((rootOf bothBranchesReturn).sites none [] []).any
      fun s => !(Reachability.afterReturn bothBranchesReturn s).isEmpty) = true := by decide +kernel
  simp only [List.all_eq_true, List.any_eq_true, Bool.not_eq_true', beq_iff_eq,
    List.isEmpty_eq_false_iff, ← hroot] at hclean hfunction hreport
  obtain ⟨f, hf, hk⟩ := hfunction
  obtain ⟨s, hs, hreported⟩ := hreport
  obtain ⟨hfinishes, hnever⟩ := hall hclean f hf hk
  exact ⟨root, hparse, hclean, f, hf, hk, hfinishes, s, hs, hreported,
    fun started outcome hexec => hnever started outcome hexec s hs hreported⟩

end FishScript
