/-
# Dumps tell what they show

A dump shows the *sketch* of a node: its kind, and its text or its named children, each with its
role and its own sketch. Two nodes have the same dump exactly when they have the same sketch
(`dump_eq_iff`). What stands in leaves does not matter: a text between quotes ends where its closing
quote stands, and behind a node, as behind a quoted text, the rest of a dump can be read on, so
the parts of a dump are found one after the other (`Sketch.dump_append_inj`).
-/
import Mathlib
import FishScript.Proofs.Text.Quoting
import FishScript.Tree.Dump

namespace FishScript

/-- What a dump shows of a node. -/
inductive Sketch
  /-- A node without named children, with its text. -/
  | leaf (kind : NodeKind) (text : Text)
  /-- A node with named children, each with its role. -/
  | inner (kind : NodeKind) (parts : List (Option Field × Sketch))

mutual

/-- What the dump of a node over a source shows. -/
def Node.sketch (source : Text) : Node → Sketch
  | ⟨_, kind, _, span, children⟩ =>
    if children.any Node.isNamed then .inner kind (sketches source children)
    else .leaf kind ((span.text? source).getD [])

/-- The sketches of the named nodes of a list, each with its role. -/
def sketches (source : Text) : List Node → List (Option Field × Sketch)
  | [] => []
  | n :: rest =>
    if n.isNamed then (n.field, n.sketch source) :: sketches source rest else sketches source rest

end

mutual

/-- The dump of a sketch. -/
def Sketch.dump : Sketch → Text
  | .leaf kind text => '(' :: (kind.name.toList ++ ' ' :: (text.quoted ++ [')']))
  | .inner kind parts => '(' :: (kind.name.toList ++ (dumpParts parts ++ [')']))

/-- The dumps of sketches, each with a space and its label before it. -/
def dumpParts : List (Option Field × Sketch) → Text
  | [] => []
  | (field, s) :: rest => ' ' :: (Field.lead field ++ s.dump) ++ dumpParts rest

end

/-! ## Sketches of nodes -/

section Sketches

variable {source source' : Text} {n n' : Node} {ns ns' : List Node}

lemma sketches_eq (source : Text) (ns : List Node) : sketches source ns =
    (ns.filter Node.isNamed).map fun n => (n.field, n.sketch source) := by
  induction ns with
  | nil => rfl
  | cons n ns ih =>
    rw [sketches, List.filter_cons]
    split
    · rw [ih, List.map_cons]
    · exact ih

namespace Node

lemma sketch_of_namedChildren_eq_nil (h : n.namedChildren = []) :
    n.sketch source = .leaf n.kind (n.text source) := by
  obtain ⟨id, kind, field, span, children⟩ := n
  have hnone : children.any Node.isNamed = false := by
    simpa [namedChildren] using h
  rw [sketch, hnone]
  rfl

lemma sketch_of_namedChildren_ne_nil (h : n.namedChildren ≠ []) : n.sketch source =
    .inner n.kind (n.namedChildren.map fun c => (c.field, c.sketch source)) := by
  obtain ⟨id, kind, field, span, children⟩ := n
  have hsome : children.any Node.isNamed = true := by
    simpa [namedChildren] using h
  rw [sketch, hsome, if_pos rfl, sketches_eq]
  rfl

/-- Two nodes have the same sketch exactly when they are of the same kind, and have the same text
and no named children, or as many named children of the same roles and sketches. -/
theorem sketch_eq_iff : n.sketch source = n'.sketch source' ↔ n.kind = n'.kind ∧
    (n.namedChildren = [] ∧ n'.namedChildren = [] ∧ n.text source = n'.text source' ∨
      n.namedChildren ≠ [] ∧ List.Forall₂ (fun c c' => c.field = c'.field ∧
        c.sketch source = c'.sketch source') n.namedChildren n'.namedChildren) := by
  have hparts : n.namedChildren.map (fun c => (c.field, c.sketch source)) =
      n'.namedChildren.map (fun c => (c.field, c.sketch source')) ↔
        List.Forall₂ (fun c c' => c.field = c'.field ∧ c.sketch source = c'.sketch source')
          n.namedChildren n'.namedChildren := by
    simp only [← List.forall₂_eq_eq_eq, List.forall₂_map_left_iff, List.forall₂_map_right_iff,
      Prod.mk.injEq]
  by_cases h : n.namedChildren = []
  · rw [sketch_of_namedChildren_eq_nil h]
    by_cases h' : n'.namedChildren = []
    · simp [sketch_of_namedChildren_eq_nil h', h, h']
    · simp [sketch_of_namedChildren_ne_nil h', h, h']
  · rw [sketch_of_namedChildren_ne_nil h]
    by_cases h' : n'.namedChildren = []
    · simp [sketch_of_namedChildren_eq_nil h', h, h']
    · simp [sketch_of_namedChildren_ne_nil h', h, hparts]

end Node

mutual

theorem Node.dump_eq : ∀ n : Node, n.dump source = (n.sketch source).dump
  | ⟨_, kind, _, span, children⟩ => by
    rw [Node.dump, Node.sketch]
    split
    · rw [Sketch.dump, dumpAll_eq children, List.append_assoc]
    · rw [Sketch.dump, List.append_assoc, List.cons_append]

lemma dumpAll_eq : ∀ ns : List Node, dumpAll source ns = dumpParts (sketches source ns)
  | [] => rfl
  | n :: ns => by
    rw [dumpAll, sketches]
    split
    · rw [dumpParts, n.dump_eq, dumpAll_eq ns]
    · exact dumpAll_eq ns

end

end Sketches

/-! ## Reading on behind a part -/

/-- The character stands for itself outside quotes, where it is neither white space nor a closing
parenthesis. -/
def isMark (c : Char) : Bool := !Text.isBlank c && c != '"' && c != ')'

namespace NodeKind

lemma name_injective : Function.Injective name := fun kind kind' h => by
  have hread : ∀ kind : NodeKind, ofName? kind.name = some kind := by
    intro kind
    cases kind <;> decide
  rw [← Option.some_inj, ← hread, h, hread]

lemma isMark_of_mem_name (kind : NodeKind) : ∀ c ∈ kind.name.toList, isMark c = true := by
  rw [← List.all_eq_true]
  cases kind <;> rfl

/-- The name of a kind is told from what follows it. -/
lemma name_append_inj {kind kind' : NodeKind} {x x' : Text} (hx : ∀ c ∈ x.head?, isMark c = false)
    (hx' : ∀ c ∈ x'.head?, isMark c = false)
    (h : kind.name.toList ++ x = kind'.name.toList ++ x') : kind = kind' ∧ x = x' := by
  have hread : ∀ {kind : NodeKind} {x : Text}, (∀ c ∈ x.head?, isMark c = false) →
      (kind.name.toList ++ x).takeWhile isMark = kind.name.toList := by
    intro kind x hx
    rw [List.takeWhile_append_of_pos kind.isMark_of_mem_name]
    cases x with
    | nil => simp
    | cons c x => simp [hx c rfl]
  have hname := congrArg (List.takeWhile isMark) h
  rw [hread hx, hread hx'] at hname
  rw [hname, List.append_cancel_left_eq] at h
  exact ⟨name_injective (String.toList_injective hname), h⟩

end NodeKind

/-- The label of a role is told from the node behind it. -/
lemma Field.lead_append_inj {field field' : Option Field} {x x' : Text}
    (h : Field.lead field ++ '(' :: x = Field.lead field' ++ '(' :: x') :
    field = field' ∧ x = x' := by
  rcases field with _ | field <;> rcases field' with _ | field'
  · exact ⟨rfl, (List.cons.inj h).2⟩
  · cases field' <;> simp [lead, label] at h
  · cases field <;> simp [lead, label] at h
  · cases field <;> cases field' <;> simp [lead, label] at h ⊢ <;> exact h

namespace Sketch

lemma exists_dump_eq (s : Sketch) : ∃ t, s.dump = '(' :: t := by
  cases s <;> exact ⟨_, rfl⟩

lemma head?_dumpParts (parts : List (Option Field × Sketch)) (x : Text) :
    ∀ c ∈ (dumpParts parts ++ ')' :: x).head?, isMark c = false := by
  cases parts with
  | nil => simp [dumpParts, isMark]
  | cons part parts => simp [dumpParts, isMark, Text.isBlank]

lemma head?_space (x : Text) : ∀ c ∈ (' ' :: x).head?, isMark c = false := by
  simp [isMark, Text.isBlank]

lemma dump_leaf_append (kind : NodeKind) (text x : Text) : (leaf kind text).dump ++ x =
    '(' :: (kind.name.toList ++ ' ' :: (text.quoted ++ ')' :: x)) := by
  simp [dump]

lemma dump_inner_append (kind : NodeKind) (parts : List (Option Field × Sketch)) (x : Text) :
    (inner kind parts).dump ++ x =
      '(' :: (kind.name.toList ++ (dumpParts parts ++ ')' :: x)) := by
  simp [dump]

/-- What stands behind the name of a kind tells a leaf from a node with named children. -/
lemma quoted_ne_dumpParts (text : Text) (parts : List (Option Field × Sketch)) (x x' : Text) :
    ' ' :: (text.quoted ++ x) ≠ dumpParts parts ++ ')' :: x' := by
  rcases parts with _ | ⟨⟨field, s⟩, parts⟩
  · simp [dumpParts]
  · obtain ⟨t, ht⟩ := s.exists_dump_eq
    rcases field with _ | field
    · simp [dumpParts, Field.lead, ht, Text.quoted]
    · cases field <;> simp [dumpParts, Field.lead, Field.label, Text.quoted]

mutual

/-- The dump of a sketch tells the sketch, whatever follows it. -/
theorem dump_append_inj : ∀ {s s' : Sketch} {x x' : Text},
    s.dump ++ x = s'.dump ++ x' → s = s' ∧ x = x'
  | .leaf kind text, .leaf kind' text', x, x', h => by
    rw [dump_leaf_append, dump_leaf_append, List.cons_inj_right] at h
    obtain ⟨rfl, hrest⟩ := NodeKind.name_append_inj (head?_space _) (head?_space _) h
    obtain ⟨rfl, hclose⟩ := Text.quoted_append_inj (List.cons.inj hrest).2
    exact ⟨rfl, (List.cons.inj hclose).2⟩
  | .leaf kind text, .inner kind' parts, x, x', h => by
    rw [dump_leaf_append, dump_inner_append, List.cons_inj_right] at h
    obtain ⟨-, hrest⟩ :=
      NodeKind.name_append_inj (head?_space _) (head?_dumpParts parts _) h
    exact absurd hrest (quoted_ne_dumpParts _ _ _ _)
  | .inner kind parts, .leaf kind' text, x, x', h => by
    rw [dump_inner_append, dump_leaf_append, List.cons_inj_right] at h
    obtain ⟨-, hrest⟩ :=
      NodeKind.name_append_inj (head?_dumpParts parts _) (head?_space _) h
    exact absurd hrest.symm (quoted_ne_dumpParts _ _ _ _)
  | .inner kind parts, .inner kind' parts', x, x', h => by
    rw [dump_inner_append, dump_inner_append, List.cons_inj_right] at h
    obtain ⟨rfl, hrest⟩ := NodeKind.name_append_inj (head?_dumpParts parts _)
      (head?_dumpParts parts' _) h
    obtain ⟨rfl, hx⟩ := dumpParts_append_inj hrest
    exact ⟨rfl, hx⟩

theorem dumpParts_append_inj : ∀ {parts parts' : List (Option Field × Sketch)} {x x' : Text},
    dumpParts parts ++ ')' :: x = dumpParts parts' ++ ')' :: x' → parts = parts' ∧ x = x'
  | [], [], x, x', h => ⟨rfl, (List.cons.inj h).2⟩
  | [], part :: parts, x, x', h => by simp [dumpParts] at h
  | part :: parts, [], x, x', h => by simp [dumpParts] at h
  | (field, s) :: parts, (field', s') :: parts', x, x', h => by
    obtain ⟨t, ht⟩ := s.exists_dump_eq
    obtain ⟨t', ht'⟩ := s'.exists_dump_eq
    simp only [dumpParts, List.cons_append, List.append_assoc, List.cons_inj_right] at h
    obtain ⟨rfl, hrest⟩ : field = field' ∧
        s.dump ++ (dumpParts parts ++ ')' :: x) = s'.dump ++ (dumpParts parts' ++ ')' :: x') := by
      rw [ht, ht', List.cons_append, List.cons_append] at h ⊢
      rw [List.cons_inj_right]
      exact Field.lead_append_inj h
    obtain ⟨rfl, hparts⟩ := dump_append_inj hrest
    obtain ⟨rfl, hx⟩ := dumpParts_append_inj hparts
    exact ⟨rfl, hx⟩

end

end Sketch

/-- Two nodes, of whatever trees, have the same dump exactly when they have the same sketch: they
are of the same kind, and they have the same text and no named children, or as many named children
with the same roles and the same sketches. -/
theorem dump_eq_iff (source source' : Text) (n n' : Node) :
    (n.dump source = n'.dump source' ↔ n.sketch source = n'.sketch source') ∧
      (n.sketch source = n'.sketch source' ↔ n.kind = n'.kind ∧
        (n.namedChildren = [] ∧ n'.namedChildren = [] ∧ n.text source = n'.text source' ∨
          n.namedChildren ≠ [] ∧ List.Forall₂ (fun c c' => c.field = c'.field ∧
            c.sketch source = c'.sketch source') n.namedChildren n'.namedChildren)) := by
  refine ⟨?_, Node.sketch_eq_iff⟩
  rw [Node.dump_eq, Node.dump_eq]
  constructor
  · intro h
    have hnil : (n.sketch source).dump ++ [] = (n'.sketch source').dump ++ [] := by rw [h]
    exact (Sketch.dump_append_inj hnil).1
  · exact fun h => congrArg Sketch.dump h

end FishScript
