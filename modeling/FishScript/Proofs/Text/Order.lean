/-
# The order of texts is the order of their bytes

Texts are ordered character by character. Of two characters the one with the smaller number has the
smaller encoding, at the first byte where the two encodings differ, and neither encoding begins the
other (`encode_append_lt`). So texts are in the same order as their encodings (`le_iff_utf8`), which
makes it a linear order.
-/
import Mathlib
import FishScript.Files.Bytes

namespace FishScript.Text

/-- Of two characters the encoding of the smaller one comes before that of the other one, whatever
follows. -/
lemma encode_append_lt {a b : Char} (h : a.toNat < b.toNat) (s t : Bytes) :
    String.utf8EncodeChar a ++ s < String.utf8EncodeChar b ++ t := by
  have hb : b.val.toNat < 1114112 := by
    rcases b.valid with hvalid | ⟨-, hvalid⟩
    · exact hvalid.trans (by decide)
    · exact hvalid
  replace h : a.val.toNat < b.val.toNat := h
  -- the bytes behind the first one are digits of the number to the base 64
  have h4096 (n : Nat) : n / 4096 = n / 64 / 64 := (Nat.div_div_eq_div_mul n 64 64).symm
  have h262144 (n : Nat) : n / 262144 = n / 64 / 64 / 64 := by
    rw [Nat.div_div_eq_div_mul, Nat.div_div_eq_div_mul]
  simp only [String.utf8EncodeChar, h4096, h262144]
  generalize a.val.toNat = x at h ⊢
  generalize b.val.toNat = y at h hb ⊢
  split_ifs <;> simp only [List.cons_append, List.nil_append, List.cons_lt_cons_iff,
    UInt8.lt_iff_toNat_lt, ← UInt8.toNat_inj, UInt8.toNat_ofNat'] <;> omega

/-- What two byte strings begin with alike plays no role for their order. -/
lemma append_le_append_iff (b x y : Bytes) : b ++ x ≤ b ++ y ↔ x ≤ y := by
  induction b with
  | nil => rfl
  | cons c b ih => simp [List.cons_le_cons_iff, UInt8.lt_irrefl, ih]

lemma utf8_cons (c : Char) (t : Text) : utf8 (c :: t) = String.utf8EncodeChar c ++ utf8 t :=
  List.flatMap_cons

theorem le_iff_utf8 (s t : Text) : s.le t = true ↔ utf8 s ≤ utf8 t := by
  induction s generalizing t with
  | nil => exact iff_of_true rfl (List.nil_le _)
  | cons a s ih =>
    cases t with
    | nil =>
      have hne : utf8 (a :: s) ≠ [] := by simp [utf8_cons, String.utf8EncodeChar_ne_nil]
      exact iff_of_false Bool.false_ne_true (mt List.le_nil.1 hne)
    | cons b t =>
      rw [le, Bool.or_eq_true, Bool.and_eq_true, decide_eq_true_iff, beq_iff_eq, ih, utf8_cons,
        utf8_cons]
      obtain hlt | heq | hgt := Nat.lt_trichotomy a.toNat b.toNat
      · exact iff_of_true (.inl hlt) (List.le_of_lt (encode_append_lt hlt _ _))
      · obtain rfl : a = b := Char.toNat_inj.1 heq
        simp [append_le_append_iff]
      · refine iff_of_false ?_ (List.not_le.2 (encode_append_lt hgt _ _))
        rintro (hlt | ⟨rfl, -⟩)
        · exact absurd hlt (Nat.lt_asymm hgt)
        · exact absurd hgt (Nat.lt_irrefl _)

/-! ## A linear order -/

variable {s t u : Text}

lemma le_total (s t : Text) : s.le t = true ∨ t.le s = true := by
  rw [le_iff_utf8, le_iff_utf8]
  exact List.le_total _ _

lemma le_trans (hst : s.le t = true) (htu : t.le u = true) : s.le u = true := by
  rw [le_iff_utf8] at hst htu ⊢
  exact List.le_trans hst htu

lemma le_antisymm (hst : s.le t = true) (hts : t.le s = true) : s = t := by
  induction s generalizing t with
  | nil =>
    cases t with
    | nil => rfl
    | cons b t => cases hts
  | cons a s ih =>
    cases t with
    | nil => cases hst
    | cons b t =>
      simp only [le, Bool.or_eq_true, Bool.and_eq_true, decide_eq_true_iff, beq_iff_eq] at hst hts
      obtain hlt | ⟨rfl, hst⟩ := hst
      · obtain hgt | ⟨rfl, -⟩ := hts
        · exact absurd hgt (Nat.lt_asymm hlt)
        · exact absurd hlt (Nat.lt_irrefl _)
      · obtain hgt | ⟨-, hts⟩ := hts
        · exact absurd hgt (Nat.lt_irrefl _)
        · rw [ih hst hts]

end FishScript.Text
