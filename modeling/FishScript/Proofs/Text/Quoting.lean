/-
# Quoted texts are read back

The escape of a character tells the character: it is read back from what it begins
(`unescape?_escaped`), so that one text between quotes is told from another, also where more
follows (`quoted_append_inj`). Between the quotes a double quote and a backslash stand only behind
the backslash of an escape (`escaped_eq`), so the end of a quoted text is found by looking for a
quote that is not escaped.
-/
import Mathlib
import FishScript.Text.Quoted

namespace FishScript.Text

/-! ## Digits -/

section Digits

variable {base n : Nat} {t : Text} {c : Char}

lemma digitValue?_digitChar (hbase : base ≤ 16) (hn : n < base) :
    digitValue? base n.digitChar = some n := by
  have hn' : n < 16 := hn.trans_le hbase
  interval_cases n <;> simp [digitValue?, Nat.digitChar] <;> omega

lemma digitsFrom?_append (base value : Nat) (s t : Text) :
    digitsFrom? base value (s ++ t) =
      (digitsFrom? base value s).bind fun value' => digitsFrom? base value' t := by
  induction s generalizing value with
  | nil => rfl
  | cons c s ih =>
    simp only [List.cons_append, digitsFrom?, ih, Option.bind_assoc]

theorem digitsFrom?_toDigits (hbase : 1 < base) (hbase' : base ≤ 16) (n : Nat) :
    digitsFrom? base 0 (Nat.toDigits base n) = some n := by
  induction n using Nat.strongRecOn with
  | ind n ih =>
    by_cases hn : n < base
    · rw [Nat.toDigits_of_lt_base hn]
      simp [digitsFrom?, digitValue?_digitChar hbase' hn]
    · have hmod : n % base < base := Nat.mod_lt n (by omega)
      have hdiv : n / base < n := Nat.div_lt_self (by omega) hbase
      rw [Nat.toDigits_of_base_le hbase (by omega), digitsFrom?_append, ih _ hdiv]
      simp [digitsFrom?, digitValue?_digitChar hbase' hmod, Nat.div_add_mod]

lemma isSome_digitValue? {value : Nat} (h : digitsFrom? base value t = some n) (hc : c ∈ t) :
    (digitValue? base c).isSome = true := by
  induction t generalizing value with
  | nil => cases hc
  | cons d t ih =>
    obtain ⟨v, hv, h⟩ := Option.bind_eq_some_iff.1 h
    rcases List.mem_cons.1 hc with rfl | hc
    · rw [hv]
      rfl
    · exact ih h hc

lemma not_mem_toDigits (hbase : 1 < base) (hbase' : base ≤ 16) (hc : digitValue? base c = none) :
    c ∉ Nat.toDigits base n := fun hmem => by
  have hsome := isSome_digitValue? (digitsFrom?_toDigits hbase hbase' n) hmem
  rw [hc] at hsome
  cases hsome

end Digits

/-! ## Escapes -/

/-- The character that a letter behind a backslash stands for. -/
def lettered : Char → Char
  | '0' => '\x00'
  | 't' => '\t'
  | 'n' => '\n'
  | 'r' => '\r'
  | c => c

/-- The character that the escape at the start of a text stands for, and what follows it. -/
def unescape? : Text → Option (Char × Text)
  | '\\' :: 'u' :: '\x7b' :: t =>
    (digitsFrom? 16 0 (t.takeWhile (· != '\x7d'))).map fun n =>
      (Char.ofNat n, (t.dropWhile (· != '\x7d')).tail)
  | '\\' :: c :: t => some (lettered c, t)
  | c :: t => some (c, t)
  | [] => none

/-- A character stands for itself, unless it has an escape: a backslash, one character, and perhaps
a number. -/
lemma escaped_eq (c : Char) : (escaped c = [c] ∧ c ≠ '"' ∧ c ≠ '\\') ∨
    ∃ d t, escaped c = '\\' :: d :: t ∧ '"' ∉ t ∧ '\\' ∉ t := by
  unfold escaped
  split
  case h_7 hquote hbackslash =>
    split
    case isTrue =>
      have hdigits : ∀ d, digitValue? 16 d = none → d ∉ Nat.toDigits 16 c.toNat := fun d hd =>
        not_mem_toDigits (by decide) (by decide) hd
      refine .inr ⟨'u', '\x7b' :: (Nat.toDigits 16 c.toNat ++ ['\x7d']), rfl, ?_, ?_⟩
      · simp [hdigits '"' (by decide)]
      · simp [hdigits '\\' (by decide)]
    case isFalse => exact .inl ⟨rfl, hquote, hbackslash⟩
  all_goals exact .inr ⟨_, [], rfl, List.not_mem_nil, List.not_mem_nil⟩

lemma unescape?_cons {c : Char} (hc : c ≠ '\\') (t : Text) : unescape? (c :: t) = some (c, t) := by
  unfold unescape?
  split
  case h_1 heq | h_2 heq => exact absurd (List.cons.inj heq).1 hc
  case h_3 heq => rw [(List.cons.inj heq).1, (List.cons.inj heq).2]
  case h_4 heq => cases heq

theorem unescape?_escaped (c : Char) (t : Text) : unescape? (escaped c ++ t) = some (c, t) := by
  unfold escaped
  split
  case h_7 hbackslash =>
    split
    case isTrue =>
      have hclose : '\x7d' ∉ Nat.toDigits 16 c.toNat :=
        not_mem_toDigits (by decide) (by decide) (by decide)
      have hdigits : ∀ d ∈ Nat.toDigits 16 c.toNat, (d != '\x7d') = true := fun d hd => by
        simpa using ne_of_mem_of_not_mem hd hclose
      have hread := digitsFrom?_toDigits (show 1 < 16 by decide) (by decide) c.toNat
      simp [numberEscape, unescape?, List.takeWhile_append_of_pos hdigits,
        List.dropWhile_append_of_pos hdigits, hread]
    case isFalse => exact unescape?_cons hbackslash t
  all_goals rfl

lemma escaped_ne_cons (c : Char) (t x : Text) : escaped c ++ t ≠ '"' :: x := by
  obtain ⟨heq, hquote, -⟩ | ⟨d, rest, heq, -⟩ := escaped_eq c
  · simp [heq, hquote]
  · simp [heq]

/-! ## Quoted texts -/

lemma quoted_append (t x : Text) :
    t.quoted ++ x = '"' :: (t.flatMap escaped ++ '"' :: x) := by
  simp [quoted]

/-- A quoted text tells the text, whatever follows it. -/
theorem quoted_append_inj {t t' x x' : Text} (h : t.quoted ++ x = t'.quoted ++ x') :
    t = t' ∧ x = x' := by
  rw [quoted_append, quoted_append, List.cons_inj_right] at h
  induction t generalizing t' with
  | nil =>
    cases t' with
    | nil => exact ⟨rfl, (List.cons.inj h).2⟩
    | cons c' t' =>
      rw [List.flatMap_cons, List.append_assoc] at h
      exact absurd h.symm (escaped_ne_cons _ _ _)
  | cons c t ih =>
    rw [List.flatMap_cons, List.append_assoc] at h
    cases t' with
    | nil => exact absurd h (escaped_ne_cons _ _ _)
    | cons c' t' =>
      rw [List.flatMap_cons, List.append_assoc] at h
      have hread := congrArg unescape? h
      rw [unescape?_escaped, unescape?_escaped, Option.some_inj] at hread
      obtain ⟨rfl, hrest⟩ := Prod.mk.inj hread
      obtain ⟨rfl, hx⟩ := ih hrest
      exact ⟨rfl, hx⟩

end FishScript.Text
