/-
# The texts that name a code

A number is written in decimal, perhaps behind a plus sign, with as many zeros before it as one
likes (`code16?_eq_some_iff`). No two codes have a name or a number in common, and no name is a
number. So a text names at most one code, and the first one of the table that it fits is the only
one (`ofText?_eq_some_iff`).
-/
import Mathlib
import FishScript.Diagnostic.Code
import FishScript.Proofs.Text.Lines
import FishScript.Proofs.Text.Quoting

namespace FishScript

namespace Text

/-! ## Numbers -/

/-- The value of decimal digits. -/
def decimalValue (digits : Text) : Nat :=
  Nat.ofDigits 10 (digits.reverse.map fun d => d.toNat - '0'.toNat)

/-- The text writes the number: decimal digits, and perhaps a plus sign before them. -/
def Writes (t : Text) (n : Nat) : Prop :=
  ∃ sign digits, t = sign ++ digits ∧ (sign = [] ∨ sign = ['+']) ∧ digits ≠ [] ∧
    (∀ d ∈ digits, d.isDigit = true) ∧ n = digits.decimalValue

variable {t : Text} {n value : Nat}

lemma decimalValue_cons (c : Char) (t : Text) :
    decimalValue (c :: t) = 10 ^ t.length * (c.toNat - '0'.toNat) + decimalValue t := by
  rw [decimalValue, List.reverse_cons, List.map_append, Nat.ofDigits_append, List.length_map,
    List.length_reverse, List.map_singleton, Nat.ofDigits_singleton, Nat.add_comm, decimalValue]

lemma digitValue?_ten (c : Char) :
    digitValue? 10 c = if c.isDigit then some (c.toNat - '0'.toNat) else none := by
  have hdigit : c.isDigit = true ↔ '0' ≤ c ∧ c ≤ '9' := by simp [Char.isDigit, Char.le_def]
  have hle : c ≤ '9' ↔ c.toNat ≤ 57 := Iff.rfl
  by_cases h : '0' ≤ c ∧ c ≤ '9'
  · have hlt : c.toNat - '0'.toNat < 10 := by
      have := hle.1 h.2
      have hzero : '0'.toNat = 48 := rfl
      omega
    rw [if_pos (hdigit.2 h), digitValue?]
    simp only [h, and_self, if_true, hlt]
  · rw [if_neg (mt hdigit.1 h), digitValue?]
    simp only [h, if_false]
    split_ifs <;> first | rfl | omega

lemma digitsFrom?_eq_some_iff : digitsFrom? 10 value t = some n ↔
    (∀ d ∈ t, d.isDigit = true) ∧ n = 10 ^ t.length * value + t.decimalValue := by
  induction t generalizing value with
  | nil =>
    rw [digitsFrom?, Option.some_inj, eq_comm]
    simp [decimalValue]
  | cons c t ih =>
    rw [digitsFrom?, digitValue?_ten, List.forall_mem_cons, decimalValue_cons, List.length_cons]
    cases c.isDigit with
    | false => simp
    | true =>
      have hvalue (d v : Nat) : 10 ^ t.length * (10 * value + d) + v =
          10 ^ (t.length + 1) * value + (10 ^ t.length * d + v) := by ring
      rw [if_pos rfl, Option.bind_some, ih, hvalue]
      simp

lemma digits?_eq_some_iff : digits? 10 t = some n ↔
    t ≠ [] ∧ (∀ d ∈ t, d.isDigit = true) ∧ n = t.decimalValue := by
  rw [digits?, Option.ite_none_left_eq_some, digitsFrom?_eq_some_iff, List.isEmpty_iff,
    Nat.mul_zero, Nat.zero_add]

/-- What a plus sign at the start of a text stands before. -/
def unsigned (t : Text) : Text :=
  match t with
  | '+' :: rest => rest
  | _ => t

lemma writes_iff : t.Writes n ↔ digits? 10 t.unsigned = some n := by
  unfold unsigned
  rw [digits?_eq_some_iff]
  constructor
  · rintro ⟨sign, digits, rfl, rfl | rfl, h⟩
    · split
      case h_1 rest heq =>
        -- a plus sign is no digit
        rw [List.nil_append] at heq
        exact absurd (h.2.1 '+' (heq ▸ List.mem_cons_self)) (by decide)
      case h_2 => exact h
    · exact h
  · split
    · exact fun h => ⟨['+'], _, rfl, .inr rfl, h⟩
    · exact fun h => ⟨[], _, rfl, .inl rfl, h⟩

lemma Writes.eq {m : Nat} (h : t.Writes n) (h' : t.Writes m) : n = m :=
  Option.some_inj.1 ((writes_iff.1 h).symm.trans (writes_iff.1 h'))

lemma Writes.exists_head? (h : t.Writes n) :
    ∃ c, t.head? = some c ∧ (c = '+' ∨ c.isDigit = true) := by
  obtain ⟨sign, digits, rfl, rfl | rfl, hne, hdigits, -⟩ := h
  · obtain ⟨d, digits, rfl⟩ := List.exists_cons_of_ne_nil hne
    exact ⟨d, rfl, .inr (hdigits d List.mem_cons_self)⟩
  · exact ⟨'+', rfl, .inl rfl⟩

lemma writes_ofNat (n : Nat) : (ofNat n).Writes n := by
  have hread := digitsFrom?_toDigits (show 1 < 10 by decide) (by decide) n
  obtain ⟨hdigits, hn⟩ := digitsFrom?_eq_some_iff.1 hread
  refine ⟨[], ofNat n, rfl, .inl rfl, Nat.toDigits_ne_nil, hdigits, ?_⟩
  rwa [Nat.mul_zero, Nat.zero_add] at hn

lemma isBlank_of_isDigit {d : Char} (h : d.isDigit = true) : isBlank d = false := by
  obtain ⟨hlow, hhigh⟩ : 48 ≤ d.toNat ∧ d.toNat ≤ 57 := by
    simpa [Char.isDigit, UInt32.le_iff_toNat_le] using h
  refine Bool.eq_false_iff.2 fun hblank => ?_
  simp only [isBlank, Bool.or_eq_true, Bool.and_eq_true, decide_eq_true_iff, beq_iff_eq] at hblank
  omega

lemma trim_ofNat (n : Nat) : (ofNat n).trim = ofNat n := by
  have hblank : ∀ d ∈ ofNat n, isBlank d = false := fun d hd =>
    isBlank_of_isDigit (Nat.isDigit_of_mem_toDigits (by decide) (by decide) hd)
  exact trim_eq_self (fun c hc => hblank c (List.mem_of_mem_head? hc))
    fun c hc => hblank c (List.mem_of_mem_getLast? hc)

/-- The numbers that are read are those that a text writes in decimal, unless they are too big. -/
theorem code16?_eq_some_iff : t.code16? = some n ↔ t.Writes n ∧ n < 2 ^ 16 := by
  have hcode : t.code16? = (digits? 10 t.unsigned).filter (· < 65536) := rfl
  rw [hcode, Option.filter_eq_some_iff, writes_iff]
  simp

end Text

namespace Code

/-! ## Names -/

/-- The word is the name of the code, or it writes its number, which fits in sixteen bits. -/
def IsSpelled (code : Code) (word : Text) : Prop :=
  word = code.name.toList ∨ ∃ n, word.Writes n ∧ n < 2 ^ 16 ∧ n = code.number

variable {code : Code} {t word : Text}

lemma isNamedBy_iff : isNamedBy word code = true ↔ code.IsSpelled word := by
  rw [isNamedBy, Bool.or_eq_true, beq_iff_eq, beq_iff_eq, Text.code16?_eq_some_iff, IsSpelled,
    eq_comm]
  refine or_congr_right ⟨fun h => ⟨_, h.1, h.2, rfl⟩, ?_⟩
  rintro ⟨n, hn, hlt, rfl⟩
  exact ⟨hn, hlt⟩

lemma not_writes_name (code : Code) (n : Nat) : ¬ Text.Writes code.name.toList n := fun h => by
  obtain ⟨c, hc, hread⟩ := h.exists_head?
  revert hread
  cases code <;> cases hc <;> decide

lemma name_injective : Function.Injective name := by
  have h : ∀ a ∈ all, ∀ b ∈ all, a.name = b.name → a = b := by decide
  exact fun a b => h a (mem_all a) b (mem_all b)

lemma number_injective : Function.Injective number := by
  have h : ∀ a ∈ all, ∀ b ∈ all, a.number = b.number → a = b := by decide
  exact fun a b => h a (mem_all a) b (mem_all b)

lemma eq_of_isSpelled {other : Code} (h : code.IsSpelled word) (h' : other.IsSpelled word) :
    code = other := by
  obtain rfl | ⟨n, hn, -, rfl⟩ := h
  · obtain heq | ⟨n, hn, -⟩ := h'
    · exact name_injective (String.toList_injective heq)
    · exact absurd hn (not_writes_name code n)
  · obtain rfl | ⟨m, hm, -, rfl⟩ := h'
    · exact absurd hn (not_writes_name other _)
    · exact number_injective (hn.eq hm)

lemma isSpelled_ofNat {n : Nat} : code.IsSpelled (Text.ofNat n).trim ↔ n = code.number := by
  rw [Text.trim_ofNat]
  constructor
  · rintro (heq | ⟨m, hm, -, rfl⟩)
    · exact absurd (heq ▸ Text.writes_ofNat n) (not_writes_name code n)
    · exact (Text.writes_ofNat n).eq hm
  · rintro rfl
    exact .inr ⟨_, Text.writes_ofNat _, by cases code <;> decide, rfl⟩

theorem ofText?_eq_some_iff : ofText? t = some code ↔ code.IsSpelled t.trim := by
  rw [ofText?]
  constructor
  · intro h
    exact isNamedBy_iff.1 (List.find?_some h)
  · intro h
    obtain ⟨other, hother⟩ := Option.isSome_iff_exists.1 <|
      List.find?_isSome.2 ⟨code, mem_all code, isNamedBy_iff.2 h⟩
    rw [hother, eq_of_isSpelled h (isNamedBy_iff.1 (List.find?_some hother))]

lemma ofText_eq_ok_iff : ofText t = .ok code ↔ code.IsSpelled t.trim := by
  rw [← ofText?_eq_some_iff, ofText]
  cases ofText? t <;> simp

lemma ofText_eq_error_iff {e : UnknownCode} : ofText t = .error e ↔
    (∀ code : Code, ¬ code.IsSpelled t.trim) ∧ e = ⟨t.trim⟩ := by
  simp only [← ofText?_eq_some_iff]
  rw [ofText]
  cases ofText? t <;> simp [eq_comm]

end Code

end FishScript
