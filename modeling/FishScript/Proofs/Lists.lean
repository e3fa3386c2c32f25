/-
# Related lists

Lists that are related element by element are alike in what is taken, kept or looked for in them.
Where each element of a list has a result or an error, the results are collected up to the first
error, and a list of results is related to the list in this way (`forall₂_of_mapM_eq_ok`). There is
one exactly if there is no error (`exists_mapM_eq_ok_iff`).
-/
import Mathlib

namespace FishScript

section Related

variable {α β : Type*} {R S : α → β → Prop} {p : α → Bool} {q : β → Bool} {xs : List α}
  {ys : List β}

lemma counterparts (h : List.Forall₂ R xs ys) :
    (∀ x ∈ xs, ∃ y ∈ ys, R x y) ∧ ∀ y ∈ ys, ∃ x ∈ xs, R x y := by
  induction h with
  | nil => exact ⟨List.forall_mem_nil _, List.forall_mem_nil _⟩
  | @cons x y xs ys hxy _ ih =>
    obtain ⟨hxs, hys⟩ := ih
    refine ⟨List.forall_mem_cons.2 ⟨⟨y, List.mem_cons_self, hxy⟩, fun x' hx' => ?_⟩,
      List.forall_mem_cons.2 ⟨⟨x, List.mem_cons_self, hxy⟩, fun y' hy' => ?_⟩⟩
    · obtain ⟨y', hy', h⟩ := hxs x' hx'
      exact ⟨y', List.mem_cons_of_mem y hy', h⟩
    · obtain ⟨x', hx', h⟩ := hys y' hy'
      exact ⟨x', List.mem_cons_of_mem x hx', h⟩

lemma forall₂_takeWhile (h : List.Forall₂ R xs ys) (hpq : ∀ {x y}, R x y → p x = q y) :
    List.Forall₂ R (xs.takeWhile p) (ys.takeWhile q) := by
  induction h with
  | nil => exact .nil
  | cons hxy _ ih =>
    rw [List.takeWhile_cons, List.takeWhile_cons, hpq hxy]
    split
    · exact .cons hxy ih
    · exact .nil

lemma forall₂_filter (h : List.Forall₂ R xs ys) (hpq : ∀ {x y}, R x y → p x = q y)
    (hS : ∀ {x y}, R x y → p x = true → S x y) :
    List.Forall₂ S (xs.filter p) (ys.filter q) := by
  induction h with
  | nil => exact .nil
  | @cons x y _ _ hxy _ ih =>
    rw [List.filter_cons, List.filter_cons, hpq hxy]
    split
    case isTrue hq => exact .cons (hS hxy ((hpq hxy).trans hq)) ih
    case isFalse => exact ih

lemma forall₂_find? (h : List.Forall₂ R xs ys) (hpq : ∀ {x y}, R x y → p x = q y)
    (hS : ∀ {x y}, R x y → p x = true → S x y) : Option.Rel S (xs.find? p) (ys.find? q) := by
  induction h with
  | nil => exact .none
  | @cons x y _ _ hxy _ ih =>
    rw [List.find?_cons, List.find?_cons, hpq hxy]
    split
    case h_1 hq => exact .some (hS hxy ((hpq hxy).trans hq))
    case h_2 => exact ih

end Related

/-! ## Lists of results -/

section Results

variable {α β ε : Type} {f : α → Except ε β} {xs : List α} {ys : List β}

lemma forall₂_of_mapM_eq_ok (h : xs.mapM f = .ok ys) :
    List.Forall₂ (fun x y => f x = .ok y) xs ys := by
  induction xs generalizing ys with
  | nil =>
    obtain rfl := Except.ok.inj h
    exact .nil
  | cons x xs ih =>
    rw [List.mapM_cons] at h
    cases hx : f x with
    | error e => rw [hx] at h; cases h
    | ok y =>
      cases hxs : xs.mapM f with
      | error e => rw [hx, hxs] at h; cases h
      | ok ys' =>
        rw [hx, hxs] at h
        obtain rfl := Except.ok.inj h
        exact .cons hx (ih hxs)

lemma isOk_iff {x : Except ε α} : x.isOk = true ↔ ∃ a, x = .ok a := by
  cases x <;> simp [Except.isOk, Except.toBool]

lemma not_isOk_iff {x : Except ε α} : (!x.isOk) = true ↔ ∃ e, x = .error e := by
  cases x <;> simp [Except.isOk, Except.toBool]

/-- Without a list of results there is a first element without one. -/
lemma mapM_eq_error_iff {e : ε} : xs.mapM f = .error e ↔
    ∃ x, xs.find? (fun x => !(f x).isOk) = some x ∧ f x = .error e := by
  induction xs with
  | nil => simp [pure, Except.pure]
  | cons x xs ih =>
    rw [List.mapM_cons, List.find?_cons]
    cases hx : f x with
    | error e' => simp [bind, Except.bind, Except.isOk, Except.toBool, hx]
    | ok y =>
      change _ ↔ ∃ x, xs.find? (fun x => !(f x).isOk) = some x ∧ f x = .error e
      rw [← ih]
      cases xs.mapM f <;> simp [bind, Except.bind, pure, Except.pure]

lemma exists_mapM_eq_ok_iff : (∃ ys, xs.mapM f = .ok ys) ↔ ∀ x ∈ xs, ∃ y, f x = .ok y := by
  constructor
  · rintro ⟨ys, h⟩ x hx
    obtain ⟨y, -, hy⟩ := (counterparts (forall₂_of_mapM_eq_ok h)).1 x hx
    exact ⟨y, hy⟩
  · intro h
    cases hys : xs.mapM f with
    | ok ys => exact ⟨ys, rfl⟩
    | error e =>
      obtain ⟨x, hx, he⟩ := mapM_eq_error_iff.1 hys
      obtain ⟨y, hy⟩ := h x (List.mem_of_find?_eq_some hx)
      cases he.symm.trans hy

lemma exists_mapM_ok (h : ∀ x ∈ xs, ∃ y, f x = .ok y) :
    ∃ ys, xs.mapM f = .ok ys ∧ List.Forall₂ (fun x y => f x = .ok y) xs ys := by
  obtain ⟨ys, hys⟩ := exists_mapM_eq_ok_iff.2 h
  exact ⟨ys, hys, forall₂_of_mapM_eq_ok hys⟩

lemma exists_mapM_error {x : α} (hx : x ∈ xs) {e : ε} (h : f x = .error e) :
    ∃ e, xs.mapM f = .error e := by
  cases hys : xs.mapM f with
  | error e => exact ⟨e, rfl⟩
  | ok ys =>
    obtain ⟨y, hy⟩ := exists_mapM_eq_ok_iff.1 ⟨ys, hys⟩ x hx
    cases h.symm.trans hy

end Results

end FishScript
