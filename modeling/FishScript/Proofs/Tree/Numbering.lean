/-
# Calls of the builder

Whether calls describe a tree is a matter of counting: none may close a node where no more nodes
have been opened than closed, and in the end as many must be closed as were opened
(`build_ok_iff`). In the tree that they describe the nodes are numbered in the order of the walk
that visits each node before the nodes below it (`map_id_nodes`), whatever the calls are: a node
that is still open, and what has been closed inside it, stand where the walk will find them.
-/
import Mathlib
import FishScript.Proofs.Tree.Sites

namespace FishScript

/-! ## Counting calls -/

namespace BuildCall

/-- The call opens a node. -/
def opens : BuildCall → Bool
  | .start _ _ => true
  | _ => false

/-- The call closes a node. -/
def closes : BuildCall → Bool
  | .finish => true
  | _ => false

end BuildCall

/-- The number of calls that open a node. -/
def openCount (calls : List BuildCall) : Nat := calls.countP BuildCall.opens

/-- The number of calls that close a node. -/
def closeCount (calls : List BuildCall) : Nat := calls.countP BuildCall.closes

/-- Up to some place more nodes are closed than opened. -/
def Overdrawn (calls : List BuildCall) : Prop :=
  ∃ front, front <+: calls ∧ openCount front < closeCount front

variable {calls : List BuildCall} {call : BuildCall}

@[simp] lemma openCount_concat :
    openCount (calls ++ [call]) = openCount calls + if call.opens then 1 else 0 := by
  rw [openCount, List.countP_append, List.countP_singleton, openCount]

@[simp] lemma closeCount_concat :
    closeCount (calls ++ [call]) = closeCount calls + if call.closes then 1 else 0 := by
  rw [closeCount, List.countP_append, List.countP_singleton, closeCount]

lemma overdrawn_concat : Overdrawn (calls ++ [call]) ↔
    Overdrawn calls ∨ openCount (calls ++ [call]) < closeCount (calls ++ [call]) := by
  constructor
  · rintro ⟨front, hfront, hlt⟩
    rcases List.prefix_concat_iff.1 hfront with rfl | hfront
    · exact .inr hlt
    · exact .inl ⟨front, hfront, hlt⟩
  · rintro (⟨front, hfront, hlt⟩ | hlt)
    · exact ⟨front, hfront.trans (List.prefix_append _ _), hlt⟩
    · exact ⟨_, List.prefix_rfl, hlt⟩

/-! ## What becomes of the calls -/

namespace Builder

variable {b : Builder} {n : Node}

@[simp] lemma underflow_attach : (b.attach n).underflow = b.underflow := by
  unfold attach
  split <;> rfl

@[simp] lemma count_attach : (b.attach n).count = b.count := by
  unfold attach
  split <;> rfl

@[simp] lemma cursor_attach : (b.attach n).cursor = b.cursor := by
  unfold attach
  split <;> rfl

@[simp] lemma length_opened_attach : (b.attach n).opened.length = b.opened.length := by
  unfold attach
  split
  · rfl
  · rename_i heq
    rw [heq]
    rfl

lemma run_concat : b.run (calls ++ [call]) = (b.run calls).step call := by
  rw [run_append]
  rfl

/-- The nodes that are open are those that were opened and not closed, unless too many were. -/
theorem run_balance (calls : List BuildCall) :
    ((empty.run calls).underflow = true ↔ Overdrawn calls) ∧
      ((empty.run calls).underflow = false →
        (empty.run calls).opened.length + closeCount calls = openCount calls) := by
  induction calls using List.reverseRecOn with
  | nil =>
    refine ⟨⟨fun h => (by cases h), ?_⟩, fun _ => rfl⟩
    rintro ⟨front, hfront, hlt⟩
    obtain rfl := List.prefix_nil.1 hfront
    cases hlt
  | append_singleton calls call ih =>
    obtain ⟨hunder, hlength⟩ := ih
    rw [run_concat, overdrawn_concat, openCount_concat, closeCount_concat, ← hunder]
    generalize empty.run calls = b at hunder hlength ⊢
    cases hflow : b.underflow with
    | true =>
      -- a fault stays
      have hstep : (b.step call).underflow = true := by
        cases call with
        | start | token => simpa [step] using hflow
        | finish =>
          simp only [step]
          split
          · rfl
          · simpa using hflow
      exact ⟨by simp [hstep], fun h => by rw [hstep] at h; cases h⟩
    | false =>
      have hopen := hlength hflow
      -- only a call that closes a node can overdraw, when none is open
      cases call with
      | start kind field =>
        refine ⟨?_, fun _ => ?_⟩
        · simp [step, BuildCall.opens, BuildCall.closes, hflow]
          omega
        · simp only [step, BuildCall.opens, BuildCall.closes, List.length_cons, if_true,
            Bool.false_eq_true, if_false]
          omega
      | token kind field span =>
        refine ⟨?_, fun _ => ?_⟩
        · simp [step, BuildCall.opens, BuildCall.closes, hflow]
          omega
        · simp only [step, BuildCall.opens, BuildCall.closes, length_opened_attach,
            Bool.false_eq_true, if_false]
          omega
      | finish =>
        cases hopened : b.opened with
        | nil =>
          rw [hopened, List.length_nil] at hopen
          refine ⟨?_, fun h => ?_⟩
          · simp [step, hopened, BuildCall.opens, BuildCall.closes]
            omega
          · simp [step, hopened] at h
        | cons o rest =>
          rw [hopened, List.length_cons] at hopen
          refine ⟨?_, fun _ => ?_⟩
          · simp [step, hopened, BuildCall.opens, BuildCall.closes, hflow]
            omega
          · simp only [step, hopened, BuildCall.opens, BuildCall.closes, length_opened_attach,
              Bool.false_eq_true, if_false, if_true]
            omega

end Builder

section Outcome

variable {source : Text}

/-- The calls close a node where none is open exactly when they are overdrawn. -/
theorem build_eq_noOpenNode_iff :
    Tree.build source calls = .error .noOpenNode ↔ Overdrawn calls := by
  rw [← (Builder.run_balance calls).1, Tree.build, Builder.finish]
  cases (Builder.empty.run calls).underflow with
  | true => simp
  | false =>
    simp only [Bool.false_eq_true, if_false, iff_false]
    split <;> simp

/-- Nodes stay open exactly when more are opened than closed, as many as are. -/
theorem build_eq_unclosedNodes_iff {n : Nat} :
    Tree.build source calls = .error (.unclosedNodes n) ↔
      ¬ Overdrawn calls ∧ 0 < n ∧ openCount calls = closeCount calls + n := by
  obtain ⟨hunder, hlength⟩ := Builder.run_balance calls
  rw [← hunder, Tree.build, Builder.finish]
  generalize Builder.empty.run calls = b at hlength
  cases hflow : b.underflow with
  | true => simp
  | false =>
    have hopen := hlength hflow
    cases hopened : b.opened with
    | nil =>
      rw [hopened, List.length_nil] at hopen
      simp only [Bool.false_eq_true, if_false, List.isEmpty_nil, if_true, reduceCtorEq, false_iff]
      omega
    | cons o rest =>
      rw [hopened] at hopen
      simp only [Bool.false_eq_true, if_false, List.isEmpty_cons, Except.error.injEq,
        Refusal.unclosedNodes.injEq, not_false_eq_true, true_and]
      rw [List.length_cons] at hopen ⊢
      omega

/-- The calls describe a tree exactly when they are balanced. -/
theorem build_ok_iff : (∃ t, Tree.build source calls = .ok t) ↔
    ¬ Overdrawn calls ∧ openCount calls = closeCount calls := by
  obtain ⟨hunder, hlength⟩ := Builder.run_balance calls
  rw [← hunder, Tree.build, Builder.finish]
  generalize Builder.empty.run calls = b at hlength
  cases hflow : b.underflow with
  | true => simp
  | false =>
    have hopen := hlength hflow
    cases hopened : b.opened with
    | nil =>
      rw [hopened, List.length_nil] at hopen
      simp only [Bool.false_eq_true, if_false, List.isEmpty_nil, if_true, Except.ok.injEq,
        exists_eq', not_false_eq_true, true_and, true_iff]
      omega
    | cons o rest =>
      rw [hopened, List.length_cons] at hopen
      simp only [Bool.false_eq_true, if_false, List.isEmpty_cons, reduceCtorEq, exists_false,
        not_false_eq_true, true_and, false_iff]
      omega

end Outcome

/-! ## Numbers -/

namespace Builder

/-- The numbers of open nodes and of what has been closed inside them, outside in. -/
def openIds : List OpenNode → List Nat
  | [] => []
  | o :: rest => openIds rest ++ o.id :: (preorderAll o.children.reverse).map Node.id

/-- The numbers of all nodes so far, in the order in which the walk will find them. -/
def ids (b : Builder) : List Nat := (preorderAll b.tops.reverse).map Node.id ++ openIds b.opened

variable {b : Builder} {n : Node}

lemma map_id_preorderAll_concat (ns : List Node) : (preorderAll (ns ++ [n])).map Node.id =
    (preorderAll ns).map Node.id ++ n.preorder.map Node.id := by
  rw [preorderAll_append, List.map_append, preorderAll, preorderAll, List.append_nil]

lemma ids_attach : (b.attach n).ids = b.ids ++ n.preorder.map Node.id := by
  unfold attach
  cases hopened : b.opened with
  | nil => simp [ids, hopened, openIds, map_id_preorderAll_concat]
  | cons o rest => simp [ids, hopened, openIds, map_id_preorderAll_concat]

/-- Only a node that is opened or added gets a number, and this is the next one. -/
lemma ids_step (h : b.ids = List.range b.count) (call : BuildCall) :
    (b.step call).ids = List.range (b.step call).count := by
  cases call with
  | start kind field =>
    show (preorderAll b.tops.reverse).map Node.id ++ (openIds b.opened ++ [b.count]) =
      List.range (b.count + 1)
    rw [List.range_succ, ← h, ids, List.append_assoc]
  | token kind field span =>
    show (b.attach ⟨b.count, kind, field, span, []⟩).ids = List.range (b.count + 1)
    rw [ids_attach, h, List.range_succ]
    rfl
  | finish =>
    cases hopened : b.opened with
    | nil =>
      have hstep : b.step .finish = { b with underflow := true } := by simp [step, hopened]
      rw [hstep]
      exact h
    | cons o rest =>
      -- the node that is closed stands where it stood, and so does what is below it
      have hstep : b.step .finish = attach { b with opened := rest } (o.close b.cursor) := by
        simp [step, hopened]
      rw [hstep, ids_attach, count_attach, Node.preorder_eq, ← h, ids, ids, hopened, openIds,
        List.map_cons, List.append_assoc]
      rfl

/-- The nodes are counted up along the walk. -/
theorem ids_run (calls : List BuildCall) :
    (empty.run calls).ids = List.range (empty.run calls).count := by
  induction calls using List.reverseRecOn with
  | nil => rfl
  | append_singleton calls call ih =>
    rw [run_concat]
    exact ids_step ih call

end Builder

variable {source : Text} {t : Tree}

lemma build_eq_ok_iff : Tree.build source calls = .ok t ↔
    (Builder.empty.run calls).underflow = false ∧ (Builder.empty.run calls).opened = [] ∧
      t = ⟨source, (Builder.empty.run calls).tops.reverse⟩ := by
  rw [Tree.build, Builder.finish]
  cases (Builder.empty.run calls).underflow with
  | true => simp
  | false =>
    cases (Builder.empty.run calls).opened with
    | nil => simp [eq_comm]
    | cons o rest => simp

theorem map_id_nodes (h : Tree.build source calls = .ok t) :
    t.nodes.map Node.id = List.range t.size := by
  obtain ⟨-, hopened, rfl⟩ := build_eq_ok_iff.1 h
  have hids := Builder.ids_run calls
  rw [Builder.ids, hopened, Builder.openIds, List.append_nil] at hids
  have hlength := congrArg List.length hids
  rw [List.length_map, List.length_range] at hlength
  rw [Tree.size, Tree.nodes, hlength]
  exact hids

end FishScript
