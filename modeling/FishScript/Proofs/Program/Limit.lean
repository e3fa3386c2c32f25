/-
# Programs within the nesting limit

The scan of the nesting limit sees the blocks of a printed program where they are. So it passes a
program whose blocks do not nest too deep as it is (`limited_print`).
-/
import Mathlib
import FishScript.Proofs.Program.Spelling
import FishScript.Proofs.Grammar.Limit

namespace FishScript

namespace Program

/-! ## Passing lexemes -/

/-- However the lexemes are placed, and whatever follows them, the scan leaves them as they are.
It starts in the one state and at the one depth, and ends in the other. -/
def Passes (n : NestingScan) (depth : Nat) (ls : List Lexeme) (n' : NestingScan) (depth' : Nat) :
    Prop :=
  ∀ ts rest : List Terminal, ts.map Terminal.symbol = ls.map Lexeme.symbol →
    limitFrom n depth none (ts ++ rest) = ts ++ limitFrom n' depth' none rest

/-- The state in which no command may begin. -/
def idle : NestingScan := ⟨false, false⟩

namespace Passes

variable {n n' n'' : NestingScan} {depth depth' depth'' : Nat} {l : Lexeme} {ls ls' : List Lexeme}

lemma nil : Passes n depth [] n depth := by
  intro ts rest hts
  rw [List.map_nil, List.map_eq_nil_iff] at hts
  rw [hts]
  rfl

lemma append (h : Passes n depth ls n' depth') (h' : Passes n' depth' ls' n'' depth'') :
    Passes n depth (ls ++ ls') n'' depth'' := by
  intro ts rest hts
  rw [List.map_append] at hts
  obtain ⟨ts₁, ts₂, rfl, hts₁, hts₂⟩ := List.map_eq_append_iff.1 hts
  rw [List.append_assoc, h ts₁ _ hts₁, h' ts₂ rest hts₂, List.append_assoc]

lemma cons (h : Passes n depth [l] n' depth') (h' : Passes n' depth' ls n'' depth'') :
    Passes n depth (l :: ls) n'' depth'' := h.append h'

/-- A lexeme that neither opens nor closes a block. -/
lemma same (h : n.effect l.symbol = .same) (hn : n.next l.symbol = n') :
    Passes n depth [l] n' depth := by
  intro ts rest hts
  obtain ⟨t, tail, rfl, ht, hnil⟩ := List.map_eq_cons_iff.1 hts
  rw [List.map_nil, List.map_eq_nil_iff] at hnil
  rw [hnil, List.singleton_append]
  simp only [limitFrom, ht, h, hn]
  rfl

lemma opens (h : n.effect l.symbol = .opens) (hn : n.next l.symbol = n')
    (hdepth : depth < maxNesting) : Passes n depth [l] n' (depth + 1) := by
  intro ts rest hts
  obtain ⟨t, tail, rfl, ht, hnil⟩ := List.map_eq_cons_iff.1 hts
  rw [List.map_nil, List.map_eq_nil_iff] at hnil
  rw [hnil, List.singleton_append]
  simp only [limitFrom, ht, h, hn]
  rw [if_neg (Nat.ne_of_lt hdepth)]
  rfl

lemma closes (h : n.effect l.symbol = .closes) (hn : n.next l.symbol = n') :
    Passes n (depth + 1) [l] n' depth := by
  intro ts rest hts
  obtain ⟨t, tail, rfl, ht, hnil⟩ := List.map_eq_cons_iff.1 hts
  rw [List.map_nil, List.map_eq_nil_iff] at hnil
  rw [hnil, List.singleton_append]
  simp only [limitFrom, ht, h, hn]
  rfl

lemma newline : Passes n depth [.newline] .initial depth := same rfl rfl

lemma words (ws : List Word) : Passes idle depth (ws.map .word) idle depth := by
  induction ws with
  | nil => exact nil
  | cons w ws ih => exact cons (same rfl rfl) ih

/-- A block, where it fits below the limit and what is in it is passed. -/
lemma enclose (b : Block) (hdepth : depth < maxNesting)
    (h : Passes ⟨b.place == .command, false⟩ (depth + 1) ls .initial (depth + 1)) :
    Passes .initial depth (enclose b ls) idle depth := by
  have hopens : NestingScan.initial.effect (Lexeme.keyword (.opener b)).symbol = .opens := by
    cases b <;> decide +kernel
  have hcloses : Passes .initial (depth + 1) [.keyword (.closing .blockEnd)] idle depth :=
    closes (by decide +kernel) (by decide +kernel)
  exact cons (opens hopens (BlockScan.next_opener b rfl) hdepth) (h.append hcloses)

lemma call (c : Call) : Passes .initial depth c.lexemes idle depth := by
  obtain ⟨-, hnext⟩ := BlockScan.next_plain c.name.ofWord?_eq_none c.name.ofOpener?_eq_none
    .initial depth
  rw [c.name.isConjunction_eq_false, Bool.and_false] at hnext
  have hend : (c.name.text == "end".toList) = false :=
    beq_false_of_ne (c.name.free "end" (by decide))
  have heffect : NestingScan.initial.effect (.word c.name.text) = .same := by
    simp only [NestingScan.effect, NestingScan.wordEffect, NestingScan.initial, hend,
      c.name.ofOpener?_eq_none]
    rfl
  exact cons (same heffect hnext) (words c.args)

lemma stages (cs : List Call) : Passes idle depth (stages cs) idle depth := by
  induction cs with
  | nil => exact nil
  | cons c cs ih => exact cons (same rfl rfl) ((call c).append ih)

end Passes

/-! ## Passing programs -/

mutual

theorem Construct.passes : ∀ (c : Construct) (depth : Nat), depth + c.nesting ≤ maxNesting →
    Passes .initial depth c.lexemes idle depth
  | .pipeline first others, depth, _ => (Passes.call first).append (Passes.stages others)
  | .returning args, depth, _ =>
    .cons (.same (by decide +kernel) (by decide +kernel)) (.words args)
  | .ifBlock condition body branches, depth, h => by
    simp only [Construct.nesting] at h
    have hcondition := condition.passes (depth + 1) (by omega)
    have hbody := body.passes (depth + 1) (by omega)
    have hbranches := branches.passes (depth + 1) (by omega)
    exact .enclose .ifBlock (by omega)
      (hcondition.append (Passes.newline.cons (hbody.append hbranches)))
  | .switchBlock values cases, depth, h => by
    simp only [Construct.nesting] at h
    have hcases := cases.passes (depth + 1) (by omega)
    exact .enclose .switchBlock (by omega)
      ((Passes.words values).append (Passes.newline.cons hcases))
  | .forLoop name items body, depth, h => by
    simp only [Construct.nesting] at h
    have hbody := body.passes (depth + 1) (by omega)
    exact .enclose .forLoop (by omega) (.cons (.same rfl rfl) (.cons (.same rfl rfl)
      ((Passes.words items).append (Passes.newline.cons hbody))))
  | .whileLoop condition body, depth, h => by
    simp only [Construct.nesting] at h
    have hcondition := condition.passes (depth + 1) (by omega)
    have hbody := body.passes (depth + 1) (by omega)
    exact .enclose .whileLoop (by omega) (hcondition.append (Passes.newline.cons hbody))
  | .beginBlock body, depth, h => by
    simp only [Construct.nesting] at h
    have hbody := body.passes (depth + 1) (by omega)
    exact .enclose .beginBlock (by omega) (Passes.newline.cons hbody)
  | .function name options body, depth, h => by
    simp only [Construct.nesting] at h
    have hbody := body.passes (depth + 1) (by omega)
    exact .enclose .function (by omega) (.cons (.same rfl rfl)
      ((Passes.words options).append (Passes.newline.cons hbody)))

theorem Statement.passes : ∀ (s : Statement) (depth : Nat), depth + s.nesting ≤ maxNesting →
    Passes .initial depth s.lexemes idle depth
  | .plain construct, depth, h => construct.passes depth h
  | .prefixed conjunction construct, depth, h => by
    refine Passes.cons (.same ?_ ?_) (construct.passes depth h)
    · cases conjunction <;> decide +kernel
    · cases conjunction <;> decide +kernel

theorem Chain.passes : ∀ (c : Chain) (depth : Nat), depth + c.nesting ≤ maxNesting →
    Passes .initial depth c.lexemes idle depth
  | .of first links, depth, h => by
    simp only [Chain.nesting] at h
    exact (first.passes depth (by omega)).append (links.passes depth (by omega))

theorem Links.passes : ∀ (ls : Links) (depth : Nat), depth + ls.nesting ≤ maxNesting →
    Passes idle depth ls.lexemes idle depth
  | .nil, depth, _ => .nil
  | .cons connector statement rest, depth, h => by
    simp only [Links.nesting] at h
    have hconnector : Passes idle depth [.connector connector] .initial depth := by
      cases connector <;> exact .same rfl rfl
    exact hconnector.cons
      ((statement.passes depth (by omega)).append (rest.passes depth (by omega)))

theorem Body.passes : ∀ (b : Body) (depth : Nat), depth + b.nesting ≤ maxNesting →
    Passes .initial depth b.lexemes .initial depth
  | .nil, depth, _ => .nil
  | .cons chain rest, depth, h => by
    simp only [Body.nesting] at h
    exact (chain.passes depth (by omega)).append
      (Passes.newline.cons (rest.passes depth (by omega)))

theorem Branches.passes : ∀ (b : Branches) (depth : Nat), depth + b.nesting ≤ maxNesting →
    Passes .initial depth b.lexemes .initial depth
  | .nil, depth, _ => .nil
  | .otherwise body, depth, h =>
    .cons (.same (by decide +kernel) rfl) (Passes.newline.cons (body.passes depth h))
  | .elseIf condition body rest, depth, h => by
    simp only [Branches.nesting] at h
    have hcondition := condition.passes depth (by omega)
    have hbody := body.passes depth (by omega)
    have hrest := rest.passes depth (by omega)
    have helse : Passes .initial depth [.keyword (.closing .elseBranch)] ⟨true, true⟩ depth :=
      .same (by decide +kernel) (by decide +kernel)
    -- right behind `else` the word `if` opens nothing
    have hif : Passes ⟨true, true⟩ depth [.keyword (.opener .ifBlock)] .initial depth :=
      .same (by decide +kernel) (by decide +kernel)
    exact helse.cons (hif.cons (hcondition.append (Passes.newline.cons (hbody.append hrest))))

theorem Cases.passes : ∀ (c : Cases) (depth : Nat), depth + c.nesting ≤ maxNesting →
    Passes .initial depth c.lexemes .initial depth
  | .nil, depth, _ => .nil
  | .cons patterns body rest, depth, h => by
    simp only [Cases.nesting] at h
    have hbody := body.passes depth (by omega)
    have hrest := rest.passes depth (by omega)
    exact .cons (.same (by decide +kernel) (by decide +kernel))
      ((Passes.words patterns).append (Passes.newline.cons (hbody.append hrest)))

end

/-- A program whose blocks nest no deeper than the limit is left as it is. -/
theorem limited_print (p : Program) (h : p.body.nesting ≤ maxNesting) :
    limited p.print = (place 0 p.body.lexemes).map Placed.terminal := by
  have hpasses := p.body.passes 0 (by omega)
    ((place 0 p.body.lexemes).map Placed.terminal) [] (by
      rw [List.map_map, show Terminal.symbol ∘ Placed.terminal = Lexeme.symbol ∘ Placed.lexeme
        from rfl, ← List.map_map, map_lexeme_place])
  rw [limited, print, terminals_spell, limitNesting]
  simpa [limitFrom] using hpasses

end Program

end FishScript
