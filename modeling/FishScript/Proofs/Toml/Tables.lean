/-
# Keys of tables

A document is read by changes of its tables at the end of a path, each of which keeps the keys of
every table on the way apart (`Entries.Distinct.changeAt?`). A new key is added only where it does
not stand already, in a document (`distinct_of_documentFrom?`) as between braces (`readsApart`). So
in the tables of a document no key stands twice (`distinct_of_document?`).
-/
import Mathlib
import FishScript.Toml.Reader

namespace FishScript.Toml

/-- No key stands twice in a table or in a table under one of its keys. What stands in an array is
left aside, since no key leads into it. -/
inductive Value.Distinct : Value → Prop
  | text (t : Text) : Distinct (.text t)
  | integer (n : Int) : Distinct (.integer n)
  | array (items : List Value) : Distinct (.array items)
  | table (origin : Origin) (entries : Entries) (keys : (entries.map Prod.fst).Nodup)
      (below : ∀ e ∈ entries, Distinct e.2) : Distinct (.table origin entries)

/-- The entries of a table without a key that stands twice. -/
structure Entries.Distinct (entries : Entries) : Prop where
  /-- The keys differ. -/
  keys : (entries.map Prod.fst).Nodup
  /-- So do those of the tables under them. -/
  below : ∀ e ∈ entries, e.2.Distinct

lemma distinct_table_iff {origin : Origin} {entries : Entries} :
    (Value.table origin entries).Distinct ↔ entries.Distinct := by
  constructor
  · rintro (_ | _ | _ | ⟨_, _, keys, below⟩)
    exact ⟨keys, below⟩
  · exact fun h => .table origin entries h.keys h.below

namespace Entries.Distinct

variable {entries : Entries} {key : Text} {value : Value} {origin : Origin}

lemma nil : Distinct [] := ⟨List.nodup_nil, nofun⟩

lemma get? (h : entries.Distinct) (hvalue : entries.get? key = some value) : value.Distinct := by
  obtain ⟨e, he, rfl⟩ := Option.map_eq_some_iff.1 hvalue
  exact h.below e (List.mem_of_find?_eq_some he)

lemma append (h : entries.Distinct) (hkey : ¬ entries.any (·.1 == key) = true)
    (hvalue : value.Distinct) : (entries ++ [(key, value)]).Distinct := by
  refine ⟨?_, fun e he => ?_⟩
  · rw [List.map_append, List.map_singleton, ← List.concat_eq_append]
    refine h.keys.concat fun hmem => hkey ?_
    obtain ⟨e, he, heq⟩ := List.mem_map.1 hmem
    exact List.any_eq_true.2 ⟨e, he, beq_iff_eq.2 heq⟩
  · rcases List.mem_append.1 he with he | he
    · exact h.below e he
    · rwa [List.mem_singleton.1 he]

lemma set (h : entries.Distinct) (hvalue : value.Distinct) : (entries.set key value).Distinct := by
  rw [Entries.set]
  split
  case isTrue =>
    refine ⟨?_, fun e he => ?_⟩
    · have hkeys (e : Text × Value) : (if e.1 == key then (key, value) else e).1 = e.1 := by
        split_ifs with heq
        · exact (beq_iff_eq.1 heq).symm
        · rfl
      have hsame : (entries.map fun e => if e.1 == key then (key, value) else e).map Prod.fst =
          entries.map Prod.fst := by
        rw [List.map_map]
        exact List.map_congr_left fun e _ => hkeys e
      rw [hsame]
      exact h.keys
    · obtain ⟨e', he', rfl⟩ := List.mem_map.1 he
      split_ifs
      · exact hvalue
      · exact h.below e' he'
  case isFalse hkey => exact h.append hkey hvalue

lemma changeAt? {dotted : Bool} {change : Origin → Entries → Option Value} {path : List Text}
    (hchange : ∀ origin entries value, entries.Distinct → change origin entries = some value →
      value.Distinct)
    (h : entries.Distinct)
    (hvalue : Toml.changeAt? dotted change path origin entries = some value) :
    value.Distinct := by
  induction path generalizing origin entries value with
  | nil => exact hchange origin entries value h hvalue
  | cons key path ih =>
    obtain ⟨inner, hinner, rfl⟩ := Option.map_eq_some_iff.1 hvalue
    refine distinct_table_iff.2 (h.set ?_)
    split at hinner
    case h_1 => exact ih .nil hinner
    case h_2 origin content hget =>
      obtain ⟨-, hinner⟩ := Option.ite_none_left_eq_some.1 hinner
      exact ih (distinct_table_iff.1 (h.get? hget)) hinner
    case h_3 => cases hinner

lemma insertDotted? {path : List Text} {new : Value} (h : entries.Distinct) (hnew : new.Distinct)
    (hvalue : Toml.insertDotted? path key new origin entries = some value) : value.Distinct := by
  refine h.changeAt? (fun origin entries value h hvalue => ?_) hvalue
  obtain ⟨-, hvalue⟩ := Option.ite_none_left_eq_some.1 hvalue
  obtain ⟨hkey, hvalue⟩ := Option.ite_none_left_eq_some.1 hvalue
  rw [← Option.some_inj.1 hvalue]
  exact distinct_table_iff.2 (h.append hkey hnew)

lemma openTable? (h : entries.Distinct)
    (hvalue : Toml.openTable? key origin entries = some value) : value.Distinct := by
  rw [Toml.openTable?] at hvalue
  split at hvalue
  case h_1 hget =>
    rw [← Option.some_inj.1 hvalue]
    refine distinct_table_iff.2 (h.append (fun hkey => ?_) (distinct_table_iff.2 .nil))
    rw [Entries.get?, Option.map_eq_none_iff, List.find?_eq_none] at hget
    obtain ⟨e, he, heq⟩ := List.any_eq_true.1 hkey
    exact hget e he heq
  case h_2 content hget =>
    rw [← Option.some_inj.1 hvalue]
    exact distinct_table_iff.2 (h.set (distinct_table_iff.2 (distinct_table_iff.1 (h.get? hget))))
  case h_3 => cases hvalue

end Entries.Distinct

/-! ## Reading -/

/-- What is read with this fuel keeps keys apart. -/
structure ReadsApart (fuel : Nat) : Prop where
  /-- In a value. -/
  value : ∀ {t x rest}, value? fuel t = some (x, rest) → x.Distinct
  /-- In a value with its key. -/
  pair : ∀ {t key x rest}, pair? fuel t = some ((key, x), rest) → x.Distinct
  /-- In a table between braces, if it did so before. -/
  pairs : ∀ {entries t entries' rest}, entries.Distinct →
    pairs? fuel entries t = some (entries', rest) → entries'.Distinct

namespace ReadsApart

variable {fuel : Nat} {t rest : Text} {x : Value} {entries entries' : Entries}

lemma value_succ (ih : ReadsApart fuel) (h : value? (fuel + 1) t = some (x, rest)) :
    x.Distinct := by
  unfold value? at h
  split at h
  case h_1 | h_2 =>
    obtain ⟨⟨x, rest⟩, -, heq⟩ := Option.map_eq_some_iff.1 h
    cases heq
    exact .text x
  case h_3 =>
    obtain ⟨⟨xs, rest⟩, -, heq⟩ := Option.map_eq_some_iff.1 h
    cases heq
    exact .array xs
  case h_4 =>
    split at h
    case h_1 =>
      cases h
      exact distinct_table_iff.2 .nil
    case h_2 =>
      obtain ⟨⟨entries, rest⟩, hpairs, heq⟩ := Option.map_eq_some_iff.1 h
      cases heq
      exact distinct_table_iff.2 (ih.pairs .nil hpairs)
  case h_5 =>
    obtain ⟨n, -, heq⟩ := Option.map_eq_some_iff.1 h
    cases heq
    exact .integer n

lemma pair_succ (ih : ReadsApart fuel) {key : List Text × Text}
    (h : pair? (fuel + 1) t = some ((key, x), rest)) : x.Distinct := by
  obtain ⟨⟨key', rest'⟩, -, h⟩ := Option.bind_eq_some_iff.1 h
  dsimp only at h
  split at h
  case h_1 =>
    obtain ⟨⟨x', rest'⟩, hvalue, heq⟩ := Option.map_eq_some_iff.1 h
    cases heq
    exact ih.value hvalue
  case h_2 => cases h

lemma pairs_succ (ih : ReadsApart fuel) (hentries : entries.Distinct)
    (h : pairs? (fuel + 1) entries t = some (entries', rest)) : entries'.Distinct := by
  obtain ⟨⟨⟨⟨path, key⟩, x⟩, rest'⟩, hpair, h⟩ := Option.bind_eq_some_iff.1 h
  dsimp only at h
  split at h
  case h_1 hinsert =>
    have hmore := distinct_table_iff.1 (hentries.insertDotted? (ih.pair hpair) hinsert)
    split at h
    case h_1 => exact ih.pairs hmore h
    case h_2 =>
      cases h
      exact hmore
    case h_3 => cases h
  case h_2 => cases h

end ReadsApart

lemma readsApart (fuel : Nat) : ReadsApart fuel := by
  induction fuel with
  | zero => exact ⟨nofun, nofun, nofun⟩
  | succ fuel ih => exact ⟨ih.value_succ, ih.pair_succ, ih.pairs_succ⟩

/-! ## Documents -/

namespace Draft

variable {p p' : Draft} {path : List Text} {key : Text}

lemma distinct_of_ofChange? {value : Option Value}
    (hvalue : ∀ x, value = some x → x.Distinct) (h : p.ofChange? value = some p') :
    p'.entries.Distinct := by
  unfold ofChange? at h
  split at h
  case h_1 =>
    rw [← Option.some_inj.1 h]
    exact distinct_table_iff.1 (hvalue _ rfl)
  case h_2 => cases h

lemma distinct_of_enter? (hp : p.entries.Distinct) (h : p.enter? path key = some p') :
    p'.entries.Distinct :=
  distinct_of_ofChange? (fun _ => hp.changeAt? fun _ _ _ hentries => hentries.openTable?) h

lemma distinct_of_insert? {x : Value} (hp : p.entries.Distinct) (hx : x.Distinct)
    (h : p.insert? path key x = some p') : p'.entries.Distinct :=
  distinct_of_ofChange? (fun _ => hp.changeAt? fun _ _ _ hentries => hentries.insertDotted? hx) h

end Draft

lemma distinct_of_documentFrom? {fuel : Nat} {p : Draft} {t : Text} {entries : Entries}
    (hp : p.entries.Distinct) (h : documentFrom? fuel p t = some entries) : entries.Distinct := by
  induction fuel generalizing p t with
  | zero => cases h
  | succ fuel ih =>
    rw [documentFrom?] at h
    split at h
    case h_1 => rwa [← Option.some_inj.1 h]
    case h_2 =>
      obtain ⟨⟨⟨path, key⟩, rest'⟩, -, h⟩ := Option.bind_eq_some_iff.1 h
      dsimp only at h
      split at h
      case h_1 =>
        obtain ⟨rest'', -, h⟩ := Option.bind_eq_some_iff.1 h
        obtain ⟨p', hp', h⟩ := Option.bind_eq_some_iff.1 h
        exact ih (Draft.distinct_of_enter? hp hp') h
      case h_2 => cases h
    case h_3 =>
      split at h
      case h_1 => exact ih hp h
      case h_2 =>
        obtain ⟨⟨⟨⟨path, key⟩, x⟩, rest⟩, hpair, h⟩ := Option.bind_eq_some_iff.1 h
        obtain ⟨rest', -, h⟩ := Option.bind_eq_some_iff.1 h
        obtain ⟨p', hp', h⟩ := Option.bind_eq_some_iff.1 h
        exact ih (Draft.distinct_of_insert? hp ((readsApart _).pair hpair) hp') h

theorem distinct_of_document? {t : Text} {entries : Entries} (h : document? t = some entries) :
    entries.Distinct := distinct_of_documentFrom? .nil h

end FishScript.Toml
