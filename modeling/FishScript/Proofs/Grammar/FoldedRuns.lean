/-
# The runs that the nesting limit folds

The limit cuts the terminals into stretches: those that it keeps, and the runs that it folds. By
the scan's own answers a run begins where a block opens while as many blocks are open as the limit
allows, and it goes on until its openings and closings balance (`exists_foldedRun`,
`cuts_limitFrom`). What is left never opens more blocks than that, so that the limit has nothing
more to fold in it (`limitNesting_limited`).
-/
import Mathlib
import FishScript.Proofs.Grammar.Agreement

namespace FishScript

namespace NestingScan

/-- What the scan knows after some terminals. -/
def after (n : NestingScan) (ts : List Terminal) : NestingScan :=
  ts.foldl (fun n t => n.next t.symbol) n

/-- The number of terminals that open a block, as the scan answers. -/
def opened (n : NestingScan) (ts : List Terminal) : Nat :=
  (n.answers ts).countP (·.2 == .opens)

/-- The number of terminals that close a block, as the scan answers. -/
def closed (n : NestingScan) (ts : List Terminal) : Nat :=
  (n.answers ts).countP (·.2 == .closes)

section Counts

variable (n : NestingScan) (t : Terminal) (ts : List Terminal)

lemma after_cons : n.after (t :: ts) = (n.next t.symbol).after ts := rfl

lemma opened_cons : n.opened (t :: ts) =
    (if n.effect t.symbol = .opens then 1 else 0) + (n.next t.symbol).opened ts := by
  simp only [opened, answers, List.countP_cons, beq_iff_eq, Nat.add_comm]

lemma closed_cons : n.closed (t :: ts) =
    (if n.effect t.symbol = .closes then 1 else 0) + (n.next t.symbol).closed ts := by
  simp only [closed, answers, List.countP_cons, beq_iff_eq, Nat.add_comm]

end Counts

end NestingScan

/-! ## Stretches -/

/-- A stretch of terminals of which the limit leaves one. -/
inductive Stretch
  /-- A terminal that is kept. -/
  | kept (t : Terminal)
  /-- A run of terminals, from its first on, that is folded. -/
  | folded (first : Terminal) (rest : List Terminal)

namespace Stretch

/-- The terminals of the stretch. -/
def terminals : Stretch → List Terminal
  | .kept t => [t]
  | .folded first rest => first :: rest

/-- What is left of the stretch. -/
def result : Stretch → Terminal
  | .kept t => t
  | .folded first rest => ⟨.garbage, ⟨first.span.start, (rest.getLastD first).span.stop⟩⟩

end Stretch

/-- A run that is folded from the state `n` of the scan on: blocks are open behind each beginning
of it, and none behind the whole, unless the run is the last of all stretches. -/
structure IsFoldedRun (n : NestingScan) (first : Terminal) (rest : List Terminal)
    (later : List Stretch) : Prop where
  opens : n.effect first.symbol = .opens
  inside : ∀ us, us <+: rest → us ≠ rest → n.closed (first :: us) < n.opened (first :: us)
  balances : n.closed (first :: rest) = n.opened (first :: rest) ∨
    later = [] ∧ n.closed (first :: rest) < n.opened (first :: rest)

/-- The stretches into which the limit cuts terminals that are read from the state `n` of the scan
on, where `depth` blocks are open. Blocks in the runs that are folded do not count. -/
inductive Cuts : NestingScan → Nat → List Stretch → Prop
  /-- There is nothing left. -/
  | nil {n : NestingScan} {depth : Nat} : Cuts n depth []
  /-- A terminal is kept if it opens no block or there is room for one. -/
  | keep {n : NestingScan} {depth : Nat} {t : Terminal} {later : List Stretch}
      (h : ¬ (n.effect t.symbol = .opens ∧ depth = maxNesting))
      (hlater : Cuts (n.next t.symbol) (n.depthAfter depth t.symbol) later) :
      Cuts n depth (.kept t :: later)
  /-- A run is folded where there is no room for the block that it opens. -/
  | fold {n : NestingScan} {first : Terminal} {rest : List Terminal} {later : List Stretch}
      (h : IsFoldedRun n first rest later)
      (hlater : Cuts (n.after (first :: rest)) maxNesting later) :
      Cuts n maxNesting (.folded first rest :: later)

/-! ## How the limit cuts -/

section Limit

variable {n : NestingScan} {depth : Nat} {t : Terminal}

lemma limitFrom_keep (h : ¬ (n.effect t.symbol = .opens ∧ depth = maxNesting))
    (ts : List Terminal) : limitFrom n depth none (t :: ts) =
      t :: limitFrom (n.next t.symbol) (n.depthAfter depth t.symbol) none ts := by
  cases he : n.effect t.symbol with
  | opens => simp only [limitFrom, NestingScan.depthAfter, he, if_neg fun hd => h ⟨he, hd⟩]
  | closes | same => simp only [limitFrom, NestingScan.depthAfter, he]

lemma limitFrom_opens (h : n.effect t.symbol = .opens) (ts : List Terminal) :
    limitFrom n maxNesting none (t :: ts) =
      limitFrom (n.next t.symbol) maxNesting (some ⟨1, t.span.start, t.span.stop⟩) ts := by
  simp only [limitFrom, h, if_true]

/-- A block is closed only where one is open, so that the blocks in a fold are its openings less
its closings. -/
lemma Fold.depthAfter_add {fold : Fold} (h : fold.depth ≠ 0) (a : Nesting) :
    fold.depthAfter a + (if a = .closes then 1 else 0) =
      fold.depth + (if a = .opens then 1 else 0) := by
  cases a with
  | opens | same => simp [depthAfter]
  | closes =>
    simp only [depthAfter, if_true, reduceCtorEq, if_false]
    omega

/-- The terminals `run` belong to a block that is being folded and has `depth` blocks open: some
are open behind each beginning of them, and none behind the whole, unless nothing follows. -/
structure Exhausts (n : NestingScan) (depth : Nat) (run later : List Terminal) : Prop where
  inside : ∀ us, us <+: run → us ≠ run → n.closed us < depth + n.opened us
  balances : n.closed run = depth + n.opened run ∨
    later = [] ∧ n.closed run < depth + n.opened run

lemma Exhausts.nil (h : depth ≠ 0) : Exhausts n depth [] [] :=
  ⟨fun _ hus hne => absurd (List.prefix_nil.1 hus) hne,
    .inr ⟨rfl, Nat.add_pos_left (Nat.pos_of_ne_zero h) _⟩⟩

lemma Exhausts.cons {fold : Fold} (h : fold.depth ≠ 0) {run later : List Terminal}
    (hrun : Exhausts (n.next t.symbol) (fold.depthAfter (n.effect t.symbol)) run later) :
    Exhausts n fold.depth (t :: run) later := by
  have hcounts : ∀ us, n.closed (t :: us) + fold.depthAfter (n.effect t.symbol) +
      (n.next t.symbol).opened us =
        fold.depth + n.opened (t :: us) + (n.next t.symbol).closed us := by
    intro us
    have hadd := Fold.depthAfter_add h (n.effect t.symbol)
    rw [n.closed_cons, n.opened_cons]
    omega
  refine ⟨fun us hus hne => ?_, ?_⟩
  · rcases List.prefix_cons_iff.1 hus with rfl | ⟨vs, rfl, hvs⟩
    · exact Nat.add_pos_left (Nat.pos_of_ne_zero h) _
    · have hlt := hrun.inside vs hvs fun heq => hne (by rw [heq])
      have hcount := hcounts vs
      omega
  · have hcount := hcounts run
    exact hrun.balances.imp (fun h => by omega) fun h => ⟨h.1, by omega⟩

lemma Exhausts.single {fold : Fold} (h : fold.depth ≠ 0)
    (hzero : fold.depthAfter (n.effect t.symbol) = 0) (later : List Terminal) :
    Exhausts n fold.depth [t] later := by
  refine Exhausts.cons h ⟨fun _ hus hne => absurd (List.prefix_nil.1 hus) hne, .inl ?_⟩
  rw [hzero]
  rfl

/-- A block that is being folded becomes one terminal, which ends with the last one of the block. -/
lemma limitFrom_fold (depth : Nat) : ∀ (ts : List Terminal) (n : NestingScan) (fold : Fold),
    fold.depth ≠ 0 → ∃ run later, ts = run ++ later ∧ Exhausts n fold.depth run later ∧
      limitFrom n depth (some fold) ts =
        ⟨.garbage, ⟨fold.start, (run.getLast?.map (·.span.stop)).getD fold.stop⟩⟩ ::
          limitFrom (n.after run) depth none later
  | [], n, fold, hfold => ⟨[], [], rfl, .nil hfold, rfl⟩
  | t :: ts, n, fold, hfold => by
    rw [limitFrom]
    simp only
    split
    case isTrue hzero => exact ⟨[t], ts, rfl, .single hfold hzero ts, rfl⟩
    case isFalse hne =>
      obtain ⟨run, later, rfl, hrun, heq⟩ := limitFrom_fold depth ts (n.next t.symbol)
        ⟨fold.depthAfter (n.effect t.symbol), fold.start, t.span.stop⟩ hne
      refine ⟨t :: run, later, rfl, .cons hfold hrun, ?_⟩
      rw [heq, n.after_cons]
      cases run <;> simp [List.getLast?_cons]

lemma exists_foldedRun (h : n.effect t.symbol = .opens) (ts : List Terminal) :
    ∃ run later, ts = run ++ later ∧
      limitFrom n maxNesting none (t :: ts) =
        (Stretch.folded t run).result :: limitFrom (n.after (t :: run)) maxNesting none later ∧
      ∀ ss, ss.flatMap Stretch.terminals = later → IsFoldedRun n t run ss := by
  obtain ⟨run, later, rfl, hrun, heq⟩ := limitFrom_fold maxNesting ts (n.next t.symbol)
    ⟨1, t.span.start, t.span.stop⟩ Nat.one_ne_zero
  have hopened : ∀ us, n.opened (t :: us) = 1 + (n.next t.symbol).opened us := fun us => by
    rw [n.opened_cons, if_pos h]
  have hclosed : ∀ us, n.closed (t :: us) = (n.next t.symbol).closed us := fun us => by
    rw [n.closed_cons, h, if_neg (by simp), Nat.zero_add]
  refine ⟨run, later, rfl, ?_, fun ss hss => ⟨h, fun us hus hne => ?_, ?_⟩⟩
  · rw [limitFrom_opens h, heq]
    cases run with
    | nil => rfl
    | cons u us => simp [Stretch.result, NestingScan.after, List.getLast?_cons]
  · rw [hopened, hclosed]
    exact hrun.inside us hus hne
  · rw [hopened, hclosed]
    refine hrun.balances.imp_right fun ⟨hlater, hlt⟩ => ⟨?_, hlt⟩
    -- no stretch is without terminals
    rw [hlater] at hss
    cases ss with
    | nil => rfl
    | cons s ss => cases s <;> cases hss

end Limit

/-- The limit cuts the terminals into stretches and leaves one terminal of each. -/
theorem cuts_limitFrom (ts : List Terminal) (n : NestingScan) (depth : Nat) :
    ∃ ss, Cuts n depth ss ∧ ss.flatMap Stretch.terminals = ts ∧
      ss.map Stretch.result = limitFrom n depth none ts := by
  induction hlength : ts.length using Nat.strong_induction_on generalizing ts n depth with
  | _ k ih =>
    cases ts with
    | nil => exact ⟨[], .nil, rfl, rfl⟩
    | cons t ts =>
      rw [List.length_cons] at hlength
      by_cases h : n.effect t.symbol = .opens ∧ depth = maxNesting
      · obtain ⟨hopens, rfl⟩ := h
        obtain ⟨run, later, rfl, heq, hrun⟩ := exists_foldedRun hopens ts
        rw [List.length_append] at hlength
        obtain ⟨ss, hcuts, hterminals, hresult⟩ :=
          ih later.length (by omega) later (n.after (t :: run)) maxNesting rfl
        refine ⟨.folded t run :: ss, .fold (hrun ss hterminals) hcuts, ?_, ?_⟩
        · rw [List.flatMap_cons, hterminals]
          rfl
        · rw [List.map_cons, hresult, heq]
      · obtain ⟨ss, hcuts, hterminals, hresult⟩ := ih ts.length (by omega) ts (n.next t.symbol)
          (n.depthAfter depth t.symbol) rfl
        refine ⟨.kept t :: ss, .keep h hcuts, ?_, ?_⟩
        · rw [List.flatMap_cons, hterminals]
          rfl
        · rw [List.map_cons, hresult, limitFrom_keep h]
          rfl

/-! ## What the limit leaves -/

/-- The terminals `out` are what the limit leaves of the terminals `ts`: one of each stretch; they
never open more blocks than the limit allows, and the limit leaves them as they are. -/
structure Limited (ts out : List Terminal) : Prop where
  cut : ∃ ss, Cuts .initial 0 ss ∧ ss.flatMap Stretch.terminals = ts ∧
    ss.map Stretch.result = out
  bounded : ∀ us, us <+: out → NestingScan.initial.count 0 us ≤ maxNesting
  stable : limitNesting out = out

/-- What the limit folds of any terminals are runs that by its own scan nest too deep, each up to
where its blocks are closed; and it folds nothing in what it has left. -/
theorem limitNesting_limited (ts : List Terminal) : Limited ts (limitNesting ts) := by
  have hbounded : ∀ us, us <+: limitNesting ts → NestingScan.initial.count 0 us ≤ maxNesting :=
    NestingScan.count_limitFrom_le (Nat.zero_le _) (fun _ => rfl) (by simp)
  exact ⟨cuts_limitFrom ts .initial 0, hbounded, NestingScan.limitNesting_eq_self_iff.2 hbounded⟩

end FishScript
