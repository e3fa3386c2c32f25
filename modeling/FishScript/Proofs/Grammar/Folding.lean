/-
# What the nesting limit folds

The limit reads nothing of a terminal but what the scan answers for it (`limitFrom_eq`). Where the
answers are right, a phrase without errors is a stretch of brackets that close where they should.
So the limit leaves it as it is, except that each block that nests too deep, with all that is in
it, becomes one terminal (`Phrase.Each.folds`).

This describes what is left of every source without bars that parses without an error
(`limitNesting_exact`).
-/
import Mathlib
import FishScript.Proofs.Grammar.Agreement
import FishScript.Proofs.Grammar.Neighbours
import FishScript.Proofs.Rules.Accounting

namespace FishScript

/-! ## Folding by answers -/

/-- The limited list of terminals for which the answers of the scan are known, where `depth` blocks
are open outside the block that is being folded, if one is. -/
def foldBlocks (depth : Nat) : Option Fold → List (Terminal × Nesting) → List Terminal
  | none, [] => []
  | some fold, [] => [fold.terminal]
  | some fold, (t, a) :: rest =>
    let fold' : Fold := ⟨fold.depthAfter a, fold.start, t.span.stop⟩
    if fold'.depth = 0 then fold'.terminal :: foldBlocks depth none rest
    else foldBlocks depth (some fold') rest
  | none, (t, .opens) :: rest =>
    if depth = maxNesting then foldBlocks depth (some ⟨1, t.span.start, t.span.stop⟩) rest
    else t :: foldBlocks (depth + 1) none rest
  | none, (t, .closes) :: rest => t :: foldBlocks (depth - 1) none rest
  | none, (t, .same) :: rest => t :: foldBlocks depth none rest

/-- Of the terminals the limit reads only what the scan answers for them. -/
lemma limitFrom_eq {ts : List Terminal} {n : NestingScan} {depth : Nat} {fold? : Option Fold} :
    limitFrom n depth fold? ts = foldBlocks depth fold? (n.answers ts) := by
  induction ts generalizing n depth fold? with
  | nil => cases fold? <;> rfl
  | cons t ts ih =>
    rw [NestingScan.answers]
    cases fold? with
    | some fold => simp only [limitFrom, foldBlocks, ih]
    | none =>
      cases he : n.effect t.symbol <;> simp only [limitFrom, foldBlocks, he, ih]

section Stretches

lemma foldBlocks_fold {fold : Fold} {a : Nesting} (h : fold.depthAfter a ≠ 0) (depth : Nat)
    (t : Terminal) (rest : List (Terminal × Nesting)) :
    foldBlocks depth (some fold) ((t, a) :: rest) =
      foldBlocks depth (some ⟨fold.depthAfter a, fold.start, t.span.stop⟩) rest := if_neg h

lemma foldBlocks_folded {fold : Fold} {a : Nesting} (h : fold.depthAfter a = 0) (depth : Nat)
    (t : Terminal) (rest : List (Terminal × Nesting)) :
    foldBlocks depth (some fold) ((t, a) :: rest) =
      ⟨.garbage, ⟨fold.start, t.span.stop⟩⟩ :: foldBlocks depth none rest := if_pos h

variable {xs ys : List (Terminal × Nesting)} {t u : Terminal} {out out' : List Terminal}
  {depth : Nat}

/-- Whatever block is being folded, the stretch is swallowed, and the block goes on behind it. -/
def Swallowed (xs : List (Terminal × Nesting)) : Prop :=
  ∀ (depth : Nat) (fold : Fold) (rest : List (Terminal × Nesting)), fold.depth ≠ 0 →
    ∃ stop, foldBlocks depth (some fold) (xs ++ rest) =
      foldBlocks depth (some { fold with stop }) rest

namespace Swallowed

lemma nil : Swallowed [] := fun _ fold _ _ => ⟨fold.stop, rfl⟩

lemma append (h : Swallowed xs) (h' : Swallowed ys) : Swallowed (xs ++ ys) := by
  intro depth fold rest hfold
  obtain ⟨stop, heq⟩ := h depth fold (ys ++ rest) hfold
  obtain ⟨stop', heq'⟩ := h' depth { fold with stop } rest hfold
  exact ⟨stop', by rw [List.append_assoc, heq, heq']⟩

lemma same (t : Terminal) : Swallowed [(t, .same)] := by
  intro depth fold rest hfold
  have hsame : fold.depthAfter .same ≠ 0 := hfold
  exact ⟨t.span.stop, foldBlocks_fold hsame depth t rest⟩

/-- A block inside the one that is being folded. -/
lemma block (h : Swallowed xs) : Swallowed ((t, .opens) :: (xs ++ [(u, .closes)])) := by
  intro depth fold rest hfold
  obtain ⟨stop, heq⟩ := h depth ⟨fold.depth + 1, fold.start, t.span.stop⟩
    ((u, .closes) :: rest) (Nat.succ_ne_zero _)
  have hopens : fold.depthAfter .opens ≠ 0 := Nat.succ_ne_zero _
  have hcloses : (Fold.mk (fold.depth + 1) fold.start stop).depthAfter .closes ≠ 0 := hfold
  refine ⟨u.span.stop, ?_⟩
  rw [List.cons_append, List.append_assoc, List.singleton_append, foldBlocks_fold hopens]
  exact heq.trans (foldBlocks_fold hcloses depth u rest)

end Swallowed

/-- Where `depth` blocks are open and none is being folded, the limit makes `out` of the stretch,
and goes on as before. -/
def Yields (depth : Nat) (xs : List (Terminal × Nesting)) (out : List Terminal) : Prop :=
  ∀ rest, foldBlocks depth none (xs ++ rest) = out ++ foldBlocks depth none rest

namespace Yields

lemma nil : Yields depth [] [] := fun _ => rfl

lemma append (h : Yields depth xs out) (h' : Yields depth ys out') :
    Yields depth (xs ++ ys) (out ++ out') := by
  intro rest
  rw [List.append_assoc, h, h', List.append_assoc]

lemma same (t : Terminal) : Yields depth [(t, .same)] [t] := fun _ => rfl

/-- A block that the limit lets pass. -/
lemma block (h : Yields (depth + 1) xs out) (hd : depth ≠ maxNesting) :
    Yields depth ((t, .opens) :: (xs ++ [(u, .closes)])) (t :: (out ++ [u])) := by
  intro rest
  rw [List.cons_append, List.append_assoc, List.singleton_append, foldBlocks, if_neg hd, h,
    foldBlocks, Nat.add_sub_cancel, List.cons_append, List.append_assoc, List.singleton_append]

/-- A block that nests too deep. -/
lemma folded (h : Swallowed xs) :
    Yields maxNesting ((t, .opens) :: (xs ++ [(u, .closes)]))
      [⟨.garbage, ⟨t.span.start, u.span.stop⟩⟩] := by
  intro rest
  obtain ⟨stop, heq⟩ := h maxNesting ⟨1, t.span.start, t.span.stop⟩ ((u, .closes) :: rest)
    Nat.one_ne_zero
  rw [List.cons_append, List.append_assoc, List.singleton_append, foldBlocks, if_pos rfl, heq]
  exact foldBlocks_folded rfl maxNesting u rest

end Yields

end Stretches

/-! ## What is left of a tree -/

/-- A part of a tree that becomes one terminal. -/
inductive Piece
  /-- A leaf. -/
  | kept (leaf : Node)
  /-- A block, from its opening word to its `end`. -/
  | folded (opener close : Node)

/-- The terminal that a piece becomes, if the terminals of the source are `ts`. -/
def Piece.Becomes (ts : List Terminal) : Piece → Terminal → Prop
  | .kept leaf, t => t ∈ ts ∧ t.span = leaf.span
  | .folded opener close, t => t = ⟨.garbage, ⟨opener.span.start, close.span.stop⟩⟩

/-- The pieces of a block that is folded: the block up to its `end`, and the words behind it. -/
def foldedPieces (source : Text) : List Node → List Piece
  | [] => []
  | opener :: rest =>
    match rest.dropWhile fun c => !c.isEnd source with
    | [] => []
    | close :: words => .folded opener close :: words.map .kept

mutual

/-- The pieces of a node that stands in `depth` blocks: its leaves, where each block that stands in
as many blocks as the limit allows is one piece. -/
def Node.pieces (source : Text) (depth : Nat) : Node → List Piece
  | ⟨id, kind, field, span, children⟩ =>
    if children.isEmpty then [.kept ⟨id, kind, field, span, children⟩]
    else if !kind.isBlock then piecesOf source depth children
    else if depth < maxNesting then piecesOf source (depth + 1) children
    else foldedPieces source children

/-- The pieces of some nodes, one after the other. -/
def piecesOf (source : Text) (depth : Nat) : List Node → List Piece
  | [] => []
  | n :: rest => n.pieces source depth ++ piecesOf source depth rest

end

section Folds

variable {source : Text} {ts : List Terminal} {xs ys : List (Terminal × Nesting)} {t u : Terminal}
  {pieces pieces' : Nat → List Piece}

/-- A block around the stretch swallows it, and where no block is being folded the limit makes of
it what the pieces become, which depend on the number of blocks around it. -/
def Folds (ts : List Terminal) (xs : List (Terminal × Nesting)) (pieces : Nat → List Piece) :
    Prop :=
  Swallowed xs ∧ ∀ depth ≤ maxNesting, ∃ out,
    Yields depth xs out ∧ List.Forall₂ (Piece.Becomes ts) (pieces depth) out

namespace Folds

lemma nil : Folds ts [] fun _ => [] := ⟨.nil, fun _ _ => ⟨[], .nil, .nil⟩⟩

lemma append (h : Folds ts xs pieces) (h' : Folds ts ys pieces') :
    Folds ts (xs ++ ys) fun depth => pieces depth ++ pieces' depth := by
  refine ⟨h.1.append h'.1, fun depth hd => ?_⟩
  obtain ⟨out, hout, hbecome⟩ := h.2 depth hd
  obtain ⟨out', hout', hbecome'⟩ := h'.2 depth hd
  exact ⟨out ++ out', hout.append hout', List.rel_append hbecome hbecome'⟩

lemma leaf {n : Node} (ht : t ∈ ts) (hspan : n.span = t.span) :
    Folds ts [(t, .same)] fun _ => [.kept n] :=
  ⟨.same t, fun _ _ => ⟨[t], .same t, .cons ⟨ht, hspan.symm⟩ .nil⟩⟩

/-- A block from its opening word to its `end`. -/
lemma block (h : Folds ts xs pieces) {opener close : Node} (ht : t ∈ ts) (hu : u ∈ ts)
    (hopener : opener.span = t.span) (hclose : close.span = u.span) :
    Folds ts ((t, .opens) :: (xs ++ [(u, .closes)])) fun depth =>
      if depth < maxNesting then .kept opener :: (pieces (depth + 1) ++ [.kept close])
      else [.folded opener close] := by
  refine ⟨h.1.block, fun depth hd => ?_⟩
  by_cases hlt : depth < maxNesting
  · obtain ⟨out, hout, hbecome⟩ := h.2 (depth + 1) hlt
    refine ⟨_, hout.block hlt.ne, ?_⟩
    simp only [if_pos hlt]
    exact .cons ⟨ht, hopener.symm⟩
      (List.rel_append hbecome (.cons ⟨hu, hclose.symm⟩ .nil))
  · obtain rfl : depth = maxNesting := Nat.le_antisymm hd (Nat.le_of_not_lt hlt)
    refine ⟨_, .folded h.1, ?_⟩
    simp only [if_neg hlt]
    refine .cons ?_ .nil
    rw [Piece.Becomes, hopener, hclose]

end Folds

end Folds

/-! ## Phrases without errors -/

/-- The node is no error, and its children have the shape of its kind. -/
structure Clean (source : Text) (gs : List Span) (kind : NodeKind) (ps : List Part) : Prop where
  noError : kind ≠ .error
  inner : kind.isLeaf = false
  schema : Schema source gs kind ps

section Phrases

variable {source : Text} {gs : List Span}

/-- Of the nodes that are no errors exactly the closed blocks count. -/
lemma isConstruct_of_ne_error {kind : NodeKind} (h : kind ≠ .error) (ps : List Part) :
    isConstruct source kind ps = kind.isBlock := by
  have he : (kind == NodeKind.error) = false := beq_false_of_ne h
  simp only [isConstruct, NodeKind.isBlock, he, Bool.false_and, Bool.or_false]

lemma NodeKind.exists_block {kind : NodeKind} (h : kind.isBlock = true) :
    ∃ b : Block, kind = b.kind := by
  obtain ⟨b, -, hb⟩ := List.any_eq_true.1 h
  exact ⟨b, beq_iff_eq.1 hb⟩

lemma Phrase.eq_leaf {p : Phrase} (h : p.part.leaf? ≠ none) :
    ∃ l : Leaf, p = .leaf l.kind l.field l.span := by
  cases p with
  | leaf kind field span => exact ⟨⟨kind, field, span⟩, rfl⟩
  | node => exact absurd rfl h

lemma Part.leaf?_ne_none_of_isKeyword {p : Part} {w : Text} (h : p.isKeyword source w = true) :
    p.leaf? ≠ none := by
  intro hnone
  simp [isKeyword, hnone] at h

lemma Block.Closed.split {b : Block} {children : List Phrase}
    (h : b.Closed source (children.map Phrase.part)) :
    ∃ opener body close words, children = opener :: (body ++ close :: words) ∧
      opener.part.isKeyword source b.opener.toList = true ∧
      (∀ p ∈ body, p.part.isEnd source = false) ∧ close.part.isEnd source = true ∧
      ∀ p ∈ words, p.part.IsArgument := by
  obtain ⟨front, close, args, hparts, hfront, hclose, -, hargs⟩ := h
  have hends := hfront.isEnd
  obtain ⟨clauses, -, -, opener, body, rfl, hopener, -⟩ := hfront
  obtain ⟨opener, rest, rfl, rfl, hrest⟩ := List.map_eq_cons_iff.1 hparts
  obtain ⟨body, tail, rfl, hbody, htail⟩ := List.map_eq_append_iff.1 hrest
  obtain ⟨close, words, rfl, rfl, rfl⟩ := List.map_eq_cons_iff.1 htail
  refine ⟨opener, body, close, words, rfl, hopener, fun p hp => ?_, hclose, fun p hp => ?_⟩
  · refine hends _ (List.mem_cons_of_mem _ ?_)
    rw [← hbody]
    exact List.mem_map_of_mem hp
  · exact hargs _ (List.mem_map_of_mem hp)

/-- A leaf in this place neither opens nor closes a block. -/
def Quiet (source : Text) (block first : Bool) (p : Phrase) : Prop :=
  block = false ∨ first = false ∧ p.part.isEnd source = false

lemma Quiet.bracket {block first : Bool} {p : Phrase} (h : Quiet source block first p) :
    p.part.bracket source block first = .same := by
  obtain rfl | ⟨rfl, hend⟩ := h
  · rfl
  · exact Part.bracket_later hend block

lemma exists_of_forall₂_append {α β : Type*} {R : α → β → Prop} {as bs : List α} {cs : List β}
    (h : List.Forall₂ R (as ++ bs) cs) :
    ∃ ds es, cs = ds ++ es ∧ List.Forall₂ R as ds ∧ List.Forall₂ R bs es :=
  ⟨cs.take as.length, cs.drop as.length, (List.take_append_drop as.length cs).symm,
    (List.forall₂_take_append cs as bs h.flip).flip,
    (List.forall₂_drop_append cs as bs h.flip).flip⟩

lemma Phrase.Each.isEnd_plant {p : Phrase} (h : p.Each (Clean source gs)) (hfull : p.Full)
    (id cursor : Nat) : (p.plant id cursor).isEnd source = p.part.isEnd source := by
  rw [← p.part_plant hfull id cursor]
  refine Node.isKeyword_part (fun hk => ?_) (by decide)
  cases h with
  | leaf => rfl
  | @node kind field children h =>
    have hkind : kind = .keyword := hk
    have hinner := h.inner
    rw [hkind] at hinner
    cases hinner

lemma piecesOf_append (depth : Nat) (ns ms : List Node) :
    piecesOf source depth (ns ++ ms) = piecesOf source depth ns ++ piecesOf source depth ms := by
  induction ns with
  | nil => rfl
  | cons n ns ih => rw [List.cons_append, piecesOf, piecesOf, ih, List.append_assoc]

lemma piecesOf_leaves {ns : List Node} (h : ∀ n ∈ ns, n.children = []) (depth : Nat) :
    piecesOf source depth ns = ns.map .kept := by
  induction ns with
  | nil => rfl
  | cons n ns ih =>
    obtain ⟨hn, hns⟩ := List.forall_mem_cons.1 h
    obtain ⟨id, kind, field, span, children⟩ := n
    obtain rfl : children = [] := hn
    rw [piecesOf, ih hns]
    rfl

/-- What the induction over a phrase shows of it and of the phrases in it. -/
def Phrase.Folds (source : Text) (p : Phrase) : Prop :=
  ∀ {block first : Bool} {xs : List (Terminal × Nesting)} {ts : List Terminal} (id cursor : Nat),
    Quiet source block first p → List.Forall₂ AnsweredBy (p.brackets source block first) xs →
    xs.map Prod.fst ⊆ ts →
      FishScript.Folds ts xs fun depth => (p.plant id cursor).pieces source depth

lemma folds_of_forall {ps : List Phrase} (h : ∀ p ∈ ps, p.Folds source) {block first : Bool}
    {xs : List (Terminal × Nesting)} {ts : List Terminal} (id cursor : Nat)
    (hq : block = false ∨ first = false ∧ ∀ p ∈ ps, p.part.isEnd source = false)
    (hxs : List.Forall₂ AnsweredBy (bracketsOf source block first ps) xs)
    (hts : xs.map Prod.fst ⊆ ts) :
    Folds ts xs fun depth => piecesOf source depth (plantAll id cursor ps) := by
  induction ps generalizing first xs id cursor with
  | nil =>
    cases hxs
    exact .nil
  | cons p ps ih =>
    obtain ⟨hp, hps⟩ := List.forall_mem_cons.1 h
    obtain ⟨ys, zs, rfl, hys, hzs⟩ := exists_of_forall₂_append hxs
    rw [List.map_append, List.append_subset] at hts
    have hfirst : Quiet source block first p := hq.imp_right fun hq => ⟨hq.1, hq.2 p (by simp)⟩
    have hrest : block = false ∨ false = false ∧ ∀ q ∈ ps, q.part.isEnd source = false :=
      hq.imp_right fun hq => ⟨rfl, fun q hq' => hq.2 q (by simp [hq'])⟩
    exact (hp id cursor hfirst hys hts.1).append (ih hps _ _ hrest hzs hts.2)

lemma exists_of_mem_plantAll {ps : List Phrase} {id cursor : Nat} {n : Node}
    (h : n ∈ plantAll id cursor ps) : ∃ p ∈ ps, ∃ id' cursor', n = p.plant id' cursor' := by
  induction ps generalizing id cursor with
  | nil => cases h
  | cons p ps ih =>
    rcases List.mem_cons.1 h with rfl | h
    · exact ⟨p, by simp, id, cursor, rfl⟩
    · obtain ⟨q, hq, hn⟩ := ih h
      exact ⟨q, by simp [hq], hn⟩

lemma bracketsOf_block {opener close : Leaf} {body words : List Phrase}
    (hclose : (Phrase.leaf close.kind close.field close.span).part.isEnd source = true) :
    bracketsOf source true true (.leaf opener.kind opener.field opener.span ::
        (body ++ .leaf close.kind close.field close.span :: words)) =
      (opener, .opens) :: (bracketsOf source true false body ++
        (close, .closes) :: bracketsOf source true false words) := by
  have hcloses : (Phrase.leaf close.kind close.field close.span).part.bracket source true false =
      .closes := by
    rw [Part.bracket, if_neg (by simp), if_neg (by simp), if_pos hclose]
  rw [bracketsOf, bracketsOf_append, Bool.false_and, bracketsOf, Phrase.brackets, Phrase.brackets,
    hcloses]
  rfl

lemma pieces_block {kind : NodeKind} (hk : kind.isBlock = true) {opener close : Node}
    {body words : List Node} (hopener : opener.children = []) (hclose : close.children = [])
    (hbody : ∀ c ∈ body, c.isEnd source = false) (hend : close.isEnd source = true)
    (hwords : ∀ c ∈ words, c.children = []) (id : Nat) (field : Option Field) (span : Span)
    (depth : Nat) :
    (Node.mk id kind field span (opener :: (body ++ close :: words))).pieces source depth =
      (if depth < maxNesting then
        .kept opener :: (piecesOf source (depth + 1) body ++ [.kept close])
      else [.folded opener close]) ++ words.map .kept := by
  rw [Node.pieces, if_neg (by simp), if_neg (by simp [hk])]
  split
  · have hleaf : ∀ {n : Node} {rest : List Node}, n.children = [] →
        piecesOf source (depth + 1) (n :: rest) = .kept n :: piecesOf source (depth + 1) rest := by
      rintro ⟨id, kind, field, span, children⟩ rest rfl
      rfl
    rw [hleaf hopener, piecesOf_append, hleaf hclose, piecesOf_leaves hwords, List.cons_append,
      List.append_assoc]
    rfl
  · rw [foldedPieces, List.dropWhile_append_of_pos fun c hc => by simp [hbody c hc],
      List.dropWhile_cons_of_neg (by simp [hend])]
    rfl

/-- A closed block, planted, has these pieces: its opening word, those of what it holds and its
`end`, or all this folded, and the words behind. -/
lemma exists_pieces_block {kind : NodeKind} (hk : kind.isBlock = true) {opener close : Leaf}
    {body words : List Phrase} (hclean : ∀ p ∈ body, p.Each (Clean source gs) ∧ p.Full)
    (hbody : ∀ p ∈ body, p.part.isEnd source = false)
    (hclose : (Phrase.leaf close.kind close.field close.span).part.isEnd source = true)
    (hwords : ∀ p ∈ words, p.part.IsArgument) (field : Option Field) (id cursor : Nat) :
    ∃ (first last : Node) (bodyId bodyCursor wordsId wordsCursor : Nat),
      first.span = opener.span ∧ last.span = close.span ∧
      ∀ depth, (Phrase.plant id cursor (.node kind field
          (.leaf opener.kind opener.field opener.span ::
            (body ++ .leaf close.kind close.field close.span :: words)))).pieces source depth =
        (if depth < maxNesting then .kept first ::
            (piecesOf source (depth + 1) (plantAll bodyId bodyCursor body) ++ [.kept last])
          else [.folded first last]) ++
        piecesOf source depth (plantAll wordsId wordsCursor words) := by
  have hbody' : ∀ id cursor, ∀ c ∈ plantAll id cursor body, c.isEnd source = false := by
    intro id cursor c hc
    obtain ⟨p, hp, id', cursor', rfl⟩ := exists_of_mem_plantAll hc
    obtain ⟨heach, hfull⟩ := hclean p hp
    rw [heach.isEnd_plant hfull]
    exact hbody p hp
  have hwords' : ∀ id cursor, ∀ c ∈ plantAll id cursor words, c.children = [] := by
    intro id cursor c hc
    obtain ⟨p, hp, id', cursor', rfl⟩ := exists_of_mem_plantAll hc
    obtain ⟨l, rfl⟩ := Phrase.eq_leaf (Option.isSome_iff_ne_none.1 (hwords p hp).1)
    rfl
  have hplanted : ∃ (first last : Node) (bodyId bodyCursor wordsId wordsCursor : Nat),
      plantAll (id + 1) cursor (.leaf opener.kind opener.field opener.span ::
        (body ++ .leaf close.kind close.field close.span :: words)) =
        first :: (plantAll bodyId bodyCursor body ++ last :: plantAll wordsId wordsCursor words) ∧
      (first.children = [] ∧ first.span = opener.span) ∧
      (last.children = [] ∧ last.span = close.span) ∧ last.isEnd source = true := by
    rw [plantAll, plantAll_append, plantAll]
    refine ⟨_, _, _, _, _, _, rfl, ⟨rfl, rfl⟩, ⟨rfl, rfl⟩, ?_⟩
    have heach : (Phrase.leaf close.kind close.field close.span).Each (Clean source gs) := .leaf
    rw [heach.isEnd_plant .leaf]
    exact hclose
  obtain ⟨first, last, bodyId, bodyCursor, wordsId, wordsCursor, heq, ⟨hfirst, hopener⟩,
    ⟨hlast, hcloser⟩, hend⟩ := hplanted
  refine ⟨first, last, bodyId, bodyCursor, wordsId, wordsCursor, hopener, hcloser, fun depth => ?_⟩
  rw [Phrase.plant, heq, pieces_block hk hfirst hlast (hbody' _ _) hend (hwords' _ _),
    piecesOf_leaves (hwords' _ _)]

/-- The limit makes of a phrase without errors what its pieces become. -/
theorem Phrase.Each.folds {p : Phrase} (h : p.Each (Clean source gs)) (hfull : p.Full) :
    p.Folds source := by
  induction h with
  | @leaf kind field span =>
    intro block first xs ts id cursor hq hxs hts
    rw [Phrase.brackets, hq.bracket] at hxs
    obtain ⟨⟨t, a⟩, rest, ⟨hleaf, rfl⟩, hrest, rfl⟩ := List.forall₂_cons_left_iff.1 hxs
    cases hrest
    exact .leaf (hts (by simp)) hleaf.1
  | @node kind field children h hchildren ih =>
    obtain _ | ⟨hne, hfulls⟩ := hfull
    intro block first xs ts id cursor hq hxs hts
    have hinside : ∀ q ∈ children, q.Folds source := fun q hq => ih q hq (hfulls q hq)
    rw [Phrase.brackets, isConstruct_of_ne_error h.noError] at hxs
    cases hk : kind.isBlock with
    | false =>
      -- the terminals and the pieces are those of the children
      have hempty : (plantAll (id + 1) cursor children).isEmpty = false := by
        cases children with
        | nil => exact absurd rfl hne
        | cons => rfl
      have hpieces : ∀ depth, (Phrase.plant id cursor (.node kind field children)).pieces source
          depth = piecesOf source depth (plantAll (id + 1) cursor children) := by
        intro depth
        rw [Phrase.plant, Node.pieces, if_neg (by simp [hempty]), if_pos (by simp [hk])]
      rw [hk] at hxs
      simp only [hpieces]
      exact folds_of_forall hinside (id + 1) cursor (.inl rfl) hxs hts
    | true =>
      rw [hk] at hxs
      obtain ⟨b, hb⟩ := NodeKind.exists_block hk
      obtain ⟨opener, body, close, words, rfl, hopener, hbody, hclose, hwords⟩ :=
        (h.schema.closed hb).split
      obtain ⟨opener, rfl⟩ := Phrase.eq_leaf (Part.leaf?_ne_none_of_isKeyword hopener)
      obtain ⟨close, rfl⟩ := Phrase.eq_leaf (Part.leaf?_ne_none_of_isKeyword hclose)
      have hquiet : ∀ q ∈ words, q.part.isEnd source = false :=
        fun q hq => Part.isEnd_eq_false_of_kind (hwords q hq).kind_ne
      -- the terminals are those of the opening word, of the body, of the `end` and of the words
      rw [bracketsOf_block hclose] at hxs
      obtain ⟨⟨t, a⟩, rest, ⟨ht, rfl⟩, hrest, rfl⟩ := List.forall₂_cons_left_iff.1 hxs
      obtain ⟨ys, tail, rfl, hys, htail⟩ := exists_of_forall₂_append hrest
      obtain ⟨⟨u, a⟩, zs, ⟨hu, rfl⟩, hzs, rfl⟩ := List.forall₂_cons_left_iff.1 htail
      simp only [List.map_cons, List.map_append, List.cons_subset, List.append_subset] at hts
      obtain ⟨htmem, hys', humem, hzs'⟩ := hts
      obtain ⟨first, last, bodyId, bodyCursor, wordsId, wordsCursor, hfirst, hlast, hpieces⟩ :=
        exists_pieces_block hk (fun q hq => ⟨hchildren q (by simp [hq]), hfulls q (by simp [hq])⟩)
          hbody hclose hwords field id cursor
      -- what is inside counts for the block, what is behind for the node around it
      have hinner := folds_of_forall (fun q hq => hinside q (by simp [hq])) bodyId bodyCursor
        (.inr ⟨rfl, hbody⟩) hys hys'
      have hbehind := folds_of_forall (fun q hq => hinside q (by simp [hq])) wordsId wordsCursor
        (.inr ⟨rfl, hquiet⟩) hzs hzs'
      have hwhole := hinner.block htmem humem (hfirst.trans ht.1) (hlast.trans hu.1)
      have hblock := hwhole.append hbehind
      simp only [hpieces]
      rw [List.cons_append, List.append_assoc] at hblock
      exact hblock

end Phrases

/-! ## Leaves of a tree -/

namespace Site

/-- What the node does to the number of open blocks if it is a leaf. -/
def bracket (source : Text) (s : Site) : Nesting :=
  s.node.part.bracket source (s.parent.any (·.isConstruct source)) s.before.isEmpty

/-- The node is the first keyword of a block. -/
def headsBlock (s : Site) : Bool :=
  s.node.kind == .keyword && s.before.isEmpty && s.parent.any (·.kind.isBlock)

end Site

/-- The sites of the leaves below a root, in source order. -/
def Node.leafSites (root : Node) : List Site :=
  (root.sites none [] []).filter fun s => s.node.isChildless && s.parent.isSome

mutual

/-- The leaves of a planted phrase do to the number of open blocks what those of the phrase do. -/
theorem Phrase.brackets_plant (source : Text) : ∀ (p : Phrase) (id cursor : Nat) (parent : Node)
    (before after : List Node), p.Full →
    (((p.plant id cursor).sites (some parent) before after).filter (·.node.isChildless)).map
        (fun s => (s.node.leaf, s.bracket source)) =
      p.brackets source (parent.isConstruct source) before.isEmpty
  | .leaf kind field span, id, cursor, parent, before, after, _ => rfl
  | .node kind field children, id, cursor, parent, before, after, .node hne hfull => by
    have hempty : (plantAll (id + 1) cursor children).isEmpty = false := by
      cases children with
      | nil => exact absurd rfl hne
      | cons => rfl
    have hconstruct : ((Phrase.node kind field children).plant id cursor).isConstruct source =
        isConstruct source kind (children.map Phrase.part) := by
      rw [Node.isConstruct, Phrase.plant, Node.parts, map_part_plantAll hfull]
    rw [Phrase.plant, Node.sites_eq, List.filter_cons_of_neg (by simp [Node.isChildless, hempty]),
      Phrase.brackets, ← hconstruct]
    exact bracketsOf_plantAll source children (id + 1) cursor _ [] hfull

theorem bracketsOf_plantAll (source : Text) : ∀ (ps : List Phrase) (id cursor : Nat)
    (parent : Node) (before : List Node), (∀ p ∈ ps, p.Full) →
    ((sitesOf parent before (plantAll id cursor ps)).filter (·.node.isChildless)).map
        (fun s => (s.node.leaf, s.bracket source)) =
      bracketsOf source (parent.isConstruct source) before.isEmpty ps
  | [], _, _, _, _, _ => rfl
  | p :: ps, id, cursor, parent, before, h => by
    rw [plantAll, sitesOf, List.filter_append, List.map_append, bracketsOf,
      p.brackets_plant source id cursor parent before _ (h p (by simp)),
      bracketsOf_plantAll source ps _ _ parent _ fun q hq => h q (by simp [hq])]
    rfl

end

/-- The leaves of the tree of some terminals do to the number of open blocks what those of their
phrase do. -/
lemma map_leafSites (source : Text) (ts : List Terminal) :
    ((parseTerminals ts).plant 0 0).leafSites.map (fun s => (s.node.leaf, s.bracket source)) =
      (parseTerminals ts).brackets source false true := by
  obtain ⟨children, heq, hfull, -⟩ := parseTerminals_leaves ts
  have hbelow : ∀ s ∈ sitesOf ((Phrase.node .program none children).plant 0 0) []
      (plantAll 1 0 children), s.parent.isSome := by
    intro s hs
    obtain hparent | ⟨p, -, hparent⟩ := parent_of_mem_sitesOf hs <;> rw [hparent] <;> rfl
  have hfilter : (sitesOf ((Phrase.node .program none children).plant 0 0) []
      (plantAll 1 0 children)).filter (fun s => s.node.isChildless && s.parent.isSome) =
      (sitesOf ((Phrase.node .program none children).plant 0 0) []
        (plantAll 1 0 children)).filter (·.node.isChildless) :=
    List.filter_congr fun s hs => by rw [hbelow s hs, Bool.and_true]
  rw [heq, Phrase.brackets, Node.leafSites, Node.sites_eq, List.filter_cons_of_neg (by simp)]
  refine (congrArg _ hfilter).trans ?_
  rw [bracketsOf_plantAll source children 1 0 _ [] hfull]
  rfl

/-! ## Trees without errors -/

mutual

/-- What holds of every node of the tree that has children holds of every node in the phrase. -/
theorem Phrase.each_of_plant {P : NodeKind → List Part → Prop} : ∀ {p : Phrase} (id cursor : Nat),
    p.Full → (∀ n ∈ (p.plant id cursor).preorder, n.children ≠ [] → P n.kind n.parts) → p.Each P
  | .leaf kind field span, id, cursor, _, _ => .leaf
  | .node kind field children, id, cursor, .node hne hfull, h => by
    obtain ⟨hself, hbelow⟩ := List.forall_mem_cons.1 h
    refine .node ?_ (each_of_plantAll (id + 1) cursor hfull hbelow)
    have hparts := hself (by cases children <;> simp_all [plantAll])
    change P kind ((plantAll (id + 1) cursor children).map Node.part) at hparts
    rwa [map_part_plantAll hfull] at hparts

theorem each_of_plantAll {P : NodeKind → List Part → Prop} : ∀ {ps : List Phrase}
    (id cursor : Nat), (∀ p ∈ ps, p.Full) →
    (∀ n ∈ preorderAll (plantAll id cursor ps), n.children ≠ [] → P n.kind n.parts) →
    ∀ p ∈ ps, p.Each P
  | [], _, _, _, _ => List.forall_mem_nil _
  | p :: ps, id, cursor, hfull, h => by
    obtain ⟨hp, hps⟩ := List.forall_mem_cons.1 hfull
    obtain ⟨hfirst, hrest⟩ := List.forall_mem_append.1 h
    exact List.forall_mem_cons.2 ⟨Phrase.each_of_plant id cursor hp hfirst,
      each_of_plantAll _ _ hps hrest⟩

end

section Trees

variable {source : Text} {gs : List Span} {ts : List Terminal}

lemma faults_eq_zero (h : ∀ n ∈ ((parseTerminals ts).plant 0 0).preorder, n.isError = false)
    (c : Code) : (parseTerminals ts).faults source c = 0 := by
  obtain ⟨children, heq, hfull, -⟩ := parseTerminals_leaves ts
  rw [heq] at h ⊢
  have hnone : Node.faulty source c (preorderAll (plantAll 1 0 children)) = [] := by
    refine List.filter_eq_nil_iff.2 fun n hn => ?_
    have hkind : n.kind ≠ .error := by
      simpa [Node.isError] using h n (List.mem_cons_of_mem _ hn)
    simp [Node.fault?, fault?_of_kind hkind]
  rw [Phrase.faults, faultCount_of_kind (by simp), Nat.zero_add,
    ← length_faulty_plantAll children 1 0 hfull, hnone]
  rfl

lemma clean_of_errorFree (hts : ∀ t ∈ ts, t.Reads source ∧ t.Known gs)
    (h : ∀ n ∈ ((parseTerminals ts).plant 0 0).preorder, n.isError = false)
    {children : List Phrase} (heq : parseTerminals ts = .node .program none children)
    (hfull : ∀ p ∈ children, p.Full) : ∀ p ∈ children, p.Each (Clean source gs) := by
  refine each_of_plantAll 1 0 hfull fun n hn hne => ?_
  have hmem : n ∈ ((parseTerminals ts).plant 0 0).preorder := by
    rw [heq]
    exact List.mem_cons_of_mem _ hn
  obtain ⟨hschema, ⟨-, hnil⟩ | hplaced⟩ := schema_of_mem_preorder hts hmem
  · exact absurd hnil hne
  · exact ⟨by simpa [Node.isError] using h n hmem, hplaced.inner, hschema⟩

/-- Where no node is an error the leaves that open and close blocks are their keywords. -/
lemma Site.bracket_iff (hts : ∀ t ∈ ts, t.Reads source ∧ t.Known gs)
    (h : ∀ n ∈ ((parseTerminals ts).plant 0 0).preorder, n.isError = false) {s : Site}
    (hs : s ∈ ((parseTerminals ts).plant 0 0).leafSites) :
    (s.bracket source = .opens ↔ s.headsBlock = true) ∧
      (s.bracket source = .closes ↔ s.closesBlock source = true) := by
  obtain ⟨hs, hleaf⟩ := List.mem_filter.1 hs
  simp only [Bool.and_eq_true, Node.isChildless, List.isEmpty_iff] at hleaf
  obtain ⟨p, hparent⟩ := Option.isSome_iff_exists.1 hleaf.2
  obtain ⟨hp, hchildren⟩ := Site.parent_mem hs hparent
  have herror : p.kind ≠ .error := by simpa [Node.isError] using h p hp
  have hend : s.node.isEnd source = s.node.part.isEnd source :=
    Node.isKeyword_part (fun _ => hleaf.1) (by decide)
  rw [bracket, headsBlock, closesBlock, hparent, Option.any_some, Option.any_some, Node.isConstruct,
    isConstruct_of_ne_error herror, hend]
  cases hk : p.kind.isBlock with
  | false => simp [Part.bracket]
  | true =>
    cases hbefore : s.before with
    | cons n before =>
      cases he : s.node.part.isEnd source <;> simp [Part.bracket, he]
    | nil =>
      -- the first child of a block is its opening word
      obtain ⟨b, hb⟩ := NodeKind.exists_block hk
      obtain ⟨front, close, args, hparts, ⟨clauses, -, -, opener, body, rfl, hopener, -⟩, -⟩ :=
        (schema_of_mem_preorder hts hp).1.closed hb
      rw [Node.parts, hchildren, hbefore] at hparts
      obtain ⟨rfl, -⟩ := List.cons.inj hparts
      have hkind : s.node.kind = .keyword := Part.isKeyword_kind hopener
      simp [Part.bracket, hkind, Block.isEnd_of_opener hopener]

lemma Node.Lineage.mem_preorder {root : Node} {path : List Node} (h : root.Lineage path) :
    ∀ n ∈ path, n ∈ root.preorder := by
  induction h with
  | root => exact List.forall_mem_singleton.2 root.mem_preorder_self
  | @child n m path h hm ih =>
    refine List.forall_mem_cons.2 ⟨?_, ih⟩
    exact mem_preorder_trans (ih n (by simp))
      (Node.mem_preorder_of_child hm m.mem_preorder_self)

/-- Where no node is an error the depth of a tree is that of its closed blocks. -/
lemma depth_le_iff_isBlock {root : Node} (h : ∀ n ∈ root.preorder, n.isError = false) {k : Nat} :
    root.depth source ≤ k ↔
      ∀ path, root.Lineage path → path.countP (·.kind.isBlock) ≤ k := by
  rw [Node.depth_le_iff]
  refine forall₂_congr fun path hpath => ?_
  rw [List.countP_congr fun n hn => ?_]
  have herror : n.kind ≠ .error := by simpa [Node.isError] using h n (hpath.mem_preorder n hn)
  rw [Node.isConstruct, isConstruct_of_ne_error herror]

end Trees

lemma known_of_mem_terminals {source : Text} {t : Terminal} (ht : t ∈ terminals source) :
    t.Reads source ∧ t.Known ((terminals source).map Terminal.span) :=
  ⟨reads_of_mem_terminals ht, fun _ => List.mem_map_of_mem ht⟩

lemma symbol_ne_pipe {source : Text} (h : ∀ tok ∈ tokens source, tok.kind ≠ .pipe) :
    ∀ t ∈ terminals source, t.symbol ≠ .pipe := by
  intro t ht hs
  obtain ⟨tok, htok, rfl⟩ := List.mem_map.1 ht
  refine h tok htok ?_
  simp only [Token.terminal, Token.symbol] at hs
  split at hs <;> first | assumption | cases hs

/-- A source without bars has a tree of all its terminals, whatever the nesting limit makes of them.
If no node of this tree is an error, then the scan of the limit takes for openings exactly the first
keywords of the blocks of the tree and for closings exactly the `end`s that close them. The limit
leaves the terminals as they are if and only if no block stands in as many blocks as it allows, and
otherwise it replaces just those that do and stand in no other such block, each from its opening
word to its `end`, by one terminal each. -/
theorem limitNesting_exact (source : Text) (hpipe : ∀ tok ∈ tokens source, tok.kind ≠ .pipe) :
    ∃ root, Tree.build source (parseTerminals (terminals source)).calls = .ok ⟨source, [root]⟩ ∧
      ((∀ n ∈ root.preorder, n.isError = false) →
        List.Forall₂ (fun s x => s.node.span = x.1.span ∧ (x.2 = .opens ↔ s.headsBlock = true) ∧
            (x.2 = .closes ↔ s.closesBlock source = true))
          root.leafSites (NestingScan.initial.answers (terminals source)) ∧
        (limitNesting (terminals source) = terminals source ↔
          ∀ path, root.Lineage path → path.countP (·.kind.isBlock) ≤ maxNesting) ∧
        List.Forall₂ (Piece.Becomes (terminals source)) (piecesOf source 0 root.children)
          (limitNesting (terminals source))) := by
  refine ⟨_, build_calls source _, fun herror => ?_⟩
  have hts := fun t (ht : t ∈ terminals source) => known_of_mem_terminals ht
  have hsymbols := symbol_ne_pipe hpipe
  have hfree : ∀ c, (parseTerminals (terminals source)).faults source c = 0 :=
    faults_eq_zero herror
  have hanswers := brackets_parseTerminals hts hsymbols hfree
  refine ⟨?_, ?_, ?_⟩
  · rw [← map_leafSites, List.forall₂_map_left_iff] at hanswers
    have hsites :=
      (List.forall₂_and_left _ _).2 ⟨fun s hs => Site.bracket_iff hts herror hs, hanswers⟩
    refine hsites.imp ?_
    rintro s x ⟨⟨hopens, hcloses⟩, ⟨hspan, -⟩, hanswer⟩
    rw [← hanswer]
    exact ⟨hspan, hopens, hcloses⟩
  · rw [limitNesting_eq_self_iff_depth hts hsymbols hfree, ← depth_plant_parseTerminals,
      depth_le_iff_isBlock herror]
  · obtain ⟨children, heq, hfull, -⟩ := parseTerminals_leaves (terminals source)
    have hclean := clean_of_errorFree hts herror heq hfull
    rw [heq, Phrase.brackets] at hanswers
    have hfolds := folds_of_forall (fun p hp => (hclean p hp).folds (hfull p hp)) 1 0 (.inl rfl)
      hanswers (by rw [NestingScan.map_fst_answers]; exact List.Subset.refl _)
    obtain ⟨out, hout, hbecome⟩ := hfolds.2 0 (Nat.zero_le _)
    have hlimited : limitNesting (terminals source) = out := by
      have hall := hout []
      rw [List.append_nil] at hall
      rw [limitNesting, limitFrom_eq, hall, foldBlocks, List.append_nil]
    rw [hlimited, heq]
    exact hbecome

/-- A script with `else if`, keywords among the arguments, and 33 blocks in each other. -/
def ladder : Text :=
  "if a end; and not b\nelse if begin; c; end\nd else\nend\n".toList ++
    (List.replicate 33 "begin;".toList).flatten ++ "echo end and if".toList ++
    (List.replicate 33 ";end".toList).flatten

/-- The last of the blocks in each other is the one that the limit replaces. -/
theorem limitNesting_exact_ladder :
    (∀ tok ∈ tokens ladder, tok.kind ≠ .pipe) ∧
    ∃ root, Tree.build ladder (parseTerminals (terminals ladder)).calls = .ok ⟨ladder, [root]⟩ ∧
      (∀ n ∈ root.preorder, n.isError = false) ∧
      List.Forall₂ (fun s x => s.node.span = x.1.span ∧ (x.2 = .opens ↔ s.headsBlock = true) ∧
          (x.2 = .closes ↔ s.closesBlock ladder = true))
        root.leafSites (NestingScan.initial.answers (terminals ladder)) ∧
      List.Forall₂ (Piece.Becomes (terminals ladder)) (piecesOf ladder 0 root.children)
        (limitNesting (terminals ladder)) ∧
      (limitNesting (terminals ladder)).countP (·.symbol == .garbage) = 1 := by
  have hpipe : ∀ tok ∈ tokens ladder, tok.kind ≠ .pipe := by decide +kernel
  obtain ⟨root, hbuild, hexact⟩ := limitNesting_exact ladder hpipe
  have hroot : root = (parseTerminals (terminals ladder)).plant 0 0 := by
    rw [build_calls] at hbuild
    injection hbuild with htree
    injection htree with _ htops
    exact (List.cons.inj htops).1.symm
  have hclean : ((parseTerminals (terminals ladder)).plant 0 0).preorder.all
      (!·.isError) = true := by decide +kernel
  have herror : ∀ n ∈ root.preorder, n.isError = false := by
    simpa only [← hroot, List.all_eq_true, Bool.not_eq_true'] using hclean
  obtain ⟨hanswers, -, hpieces⟩ := hexact herror
  exact ⟨hpipe, root, hbuild, herror, hanswers, hpieces, by decide +kernel⟩

end FishScript
