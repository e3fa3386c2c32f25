/-
# Trees without comments

What the rules read of a node is its kind, its role, the text of some leaves, and the nodes below
it. Nodes match if they agree in this, apart from comments below the first; they may stand anywhere
and have any numbers. Phrases that match become nodes that match (`Phrase.Matches.plant`), and nodes
that match have the same skeleton of named nodes (`Node.Matches.skeleton_eq`).
-/
import Mathlib
import FishScript.Proofs.Grammar.Comments
import FishScript.Proofs.Tree.Sites

namespace FishScript

/-! ## Nodes that match -/

mutual

/-- The node of one source is the node of another, without its comments: it has the kind, the role,
the text, if it is read, and the nodes below it. -/
inductive Node.Matches (source source' : Text) : Node → Node → Prop
  /-- Nodes with the same nodes below them. -/
  | mk {id id' : Nat} {kind : NodeKind} {field : Option Field} {span span' : Span}
      {children children' : List Node} (hk : kind ≠ .comment)
      (ht : isRead kind field = true → span.text? source = span'.text? source')
      (h : NodesMatch source source' children children') :
      Node.Matches source source' ⟨id, kind, field, span, children⟩
        ⟨id', kind, field, span', children'⟩

/-- The nodes of one source are the nodes of another, without the comments among them and below
them. -/
inductive NodesMatch (source source' : Text) : List Node → List Node → Prop
  /-- No nodes. -/
  | nil : NodesMatch source source' [] []
  /-- A comment is left out. -/
  | comment {id : Nat} {field : Option Field} {span : Span} {ns ns' : List Node}
      (h : NodesMatch source source' ns ns') :
      NodesMatch source source' (⟨id, .comment, field, span, []⟩ :: ns) ns'
  /-- Another node stays. -/
  | keep {n n' : Node} {ns ns' : List Node} (hn : n.Matches source source' n')
      (h : NodesMatch source source' ns ns') : NodesMatch source source' (n :: ns) (n' :: ns')

end

section Matches

variable {source source' : Text} {n n' : Node} {ns ns' : List Node}

namespace Node.Matches

lemma kind (h : n.Matches source source' n') : n'.kind = n.kind := by
  cases h
  rfl

lemma field (h : n.Matches source source' n') : n'.field = n.field := by
  cases h
  rfl

lemma children (h : n.Matches source source' n') :
    NodesMatch source source' n.children n'.children := by
  cases h
  assumption

lemma text (h : n.Matches source source' n') (hread : isRead n.kind n.field = true) :
    n'.text source' = n.text source := by
  cases h with
  | mk hk ht hc => rw [Node.text, Node.text, ht hread]

lemma isNamed (h : n.Matches source source' n') : n'.isNamed = n.isNamed := by
  rw [Node.isNamed, Node.isNamed, h.kind]

lemma isStatement (h : n.Matches source source' n') : n'.isStatement = n.isStatement := by
  rw [Node.isStatement, Node.isStatement, h.isNamed, h.field, h.kind]

end Node.Matches

namespace NodesMatch

lemma append : ∀ {ns ns' ms ms'}, NodesMatch source source' ns ns' →
    NodesMatch source source' ms ms' → NodesMatch source source' (ns ++ ms) (ns' ++ ms')
  | _, _, _, _, .nil, h => h
  | _, _, _, _, .comment h, h' => .comment (h.append h')
  | _, _, _, _, .keep hn h, h' => .keep hn (h.append h')

/-- What a test leaves of nodes that match, if comments do not pass it. -/
lemma filter {P : Node → Bool} (hcomment : ∀ n : Node, n.kind = .comment → P n = false)
    (hP : ∀ {n n'}, n.Matches source source' n' → P n' = P n) : ∀ {ns ns'},
      NodesMatch source source' ns ns' →
        List.Forall₂ (Node.Matches source source') (ns.filter P) (ns'.filter P)
  | _, _, .nil => .nil
  | _, _, .comment h => by
    rw [List.filter_cons_of_neg (by simp [hcomment])]
    exact h.filter hcomment hP
  | _, _, @keep _ _ n n' ns ns' hn h => by
    rw [List.filter_cons, List.filter_cons, hP hn]
    split
    · exact .cons hn (h.filter hcomment hP)
    · exact h.filter hcomment hP

lemma any_kind {kind : NodeKind} (hk : kind ≠ .comment) : ∀ {ns ns'},
    NodesMatch source source' ns ns' → ns'.any (·.kind == kind) = ns.any (·.kind == kind)
  | _, _, .nil => rfl
  | _, _, .comment h => by simp [h.any_kind hk, hk.symm]
  | _, _, .keep hn h => by rw [List.any_cons, List.any_cons, hn.kind, h.any_kind hk]

lemma isNamed (h : NodesMatch source source' ns ns') :
    List.Forall₂ (Node.Matches source source') (ns.filter Node.isNamed)
      (ns'.filter Node.isNamed) :=
  h.filter (fun n hk => by rw [Node.isNamed, hk]; rfl) Node.Matches.isNamed

end NodesMatch

mutual

lemma Node.Matches.preorder : ∀ {n n' : Node}, n.Matches source source' n' →
    NodesMatch source source' n.preorder n'.preorder
  | _, _, .mk hk ht h => .keep (.mk hk ht h) h.preorder

lemma NodesMatch.preorder : ∀ {ns ns' : List Node}, NodesMatch source source' ns ns' →
    NodesMatch source source' (preorderAll ns) (preorderAll ns')
  | _, _, .nil => .nil
  | _, _, .comment h => .comment h.preorder
  | _, _, .keep hn h => hn.preorder.append h.preorder

end

end Matches

/-! ## The tree of a phrase -/

mutual

theorem Phrase.Matches.plant {source source' : Text} : ∀ {p p' : Phrase},
    p.Matches source source' p' → ∀ id id' cursor cursor',
      (p.plant id cursor).Matches source source' (p'.plant id' cursor')
  | _, _, .leaf hk ht, _, _, _, _ => .mk hk ht .nil
  | _, _, .node hk hf h, _, _, _, _ => by
    refine .mk ?_ ?_ (h.plant _ _ _ _)
    · rintro rfl
      cases hk
    · intro hread
      rw [isRead_eq_false hk hf] at hread
      cases hread

lemma PhrasesMatch.plant {source source' : Text} : ∀ {ps ps' : List Phrase},
    PhrasesMatch source source' ps ps' → ∀ id id' cursor cursor',
      NodesMatch source source' (plantAll id cursor ps) (plantAll id' cursor' ps')
  | _, _, .nil, _, _, _, _ => .nil
  | _, _, .comment h, _, _, _, _ => .comment (h.plant _ _ _ _)
  | _, _, .keep hp h, _, _, _, _ => .keep (hp.plant _ _ _ _) (h.plant _ _ _ _)

end

/-! ## Skeletons -/

/-- The named nodes of a tree: their kinds, their roles, and which of them stand in which. -/
structure Skeleton where
  /-- What the node stands for. -/
  kind : NodeKind
  /-- Its role in the node that holds it. -/
  field : Option Field
  /-- The named nodes right below it, in source order. -/
  children : List Skeleton
deriving Repr

mutual

/-- The skeleton of a node. -/
def Node.skeleton : Node → Skeleton
  | ⟨_, kind, field, _, children⟩ => ⟨kind, field, skeletons children⟩

/-- The skeletons of the named ones among some nodes. -/
def skeletons : List Node → List Skeleton
  | [] => []
  | n :: rest => if n.isNamed then n.skeleton :: skeletons rest else skeletons rest

end

mutual

theorem Node.Matches.skeleton_eq {source source' : Text} : ∀ {n n' : Node},
    n.Matches source source' n' → n'.skeleton = n.skeleton
  | _, _, .mk hk ht h => by rw [Node.skeleton, Node.skeleton, h.skeletons_eq]

lemma NodesMatch.skeletons_eq {source source' : Text} : ∀ {ns ns' : List Node},
    NodesMatch source source' ns ns' → skeletons ns' = skeletons ns
  | _, _, .nil => rfl
  | _, _, .comment h => by
    rw [h.skeletons_eq]
    rfl
  | _, _, .keep hn h => by
    simp only [skeletons]
    rw [hn.isNamed, hn.skeleton_eq, h.skeletons_eq]

end

end FishScript
