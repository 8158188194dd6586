import InitialValue.Proofs.Grammar
import InitialValue.Proofs.Parts

/-! What a sentence of the grammar says about the parts of its tree: every call has as
many arguments as its function accepts, the literals are the numbers among the tokens,
and every symbol is one of the identifiers. -/

namespace InitialValue.Expression

open InitialValue.Expression.Tree (Within)

variable {n : Nat} {p : Phrase} {ts : List Token} {t : Tree}

theorem mem_commaSeparated {parts : List (List Token)} {u : Token} (hu : u ≠ .comma) :
    u ∈ commaSeparated parts ↔ ∃ part ∈ parts, u ∈ part := by
  induction parts with
  | nil => simp
  | cons part parts ih =>
    cases parts with
    | nil => simp
    | cons next parts =>
      rw [commaSeparated_cons_cons, List.mem_append, List.mem_cons, ih]
      simp [hu]

theorem Derives.accepts (h : Derives n p ts t) {f : Builtin} {args : List Tree}
    (hc : Within (.call f args) t) : f.arity.accepts args.length = true := by
  induction h with
  | ofTerm _ ih | ofUnary _ ih | ofPower _ ih | ofPrimary _ ih | group _ ih => exact ih hc
  | add _ _ iha ihb | sub _ _ iha ihb | mul _ _ iha ihb | div _ _ iha ihb | pow _ _ iha ihb =>
    have hin := (Tree.within_binary_iff.mp hc).resolve_left (by simp)
    exact hin.elim iha ihb
  | plus _ ih | minus _ ih => exact ih ((Tree.within_signed_iff.mp hc).resolve_left (by simp))
  | number _ | symbol _ => simp at hc
  | call parts _ _ ha ih =>
    obtain heq | ⟨a, hmem, hin⟩ := Tree.within_call_iff.mp hc
    · cases heq
      rwa [List.length_map]
    · obtain ⟨part, hpart, rfl⟩ := List.mem_map.mp hmem
      exact ih part hpart hin

/-- The literals of the tree are the numbers among the tokens. -/
theorem Derives.within_literal_iff (h : Derives n p ts t) {v : Float} :
    Within (.literal v) t ↔ .number v ∈ ts := by
  induction h with
  | ofTerm _ ih | ofUnary _ ih | ofPower _ ih | ofPrimary _ ih => exact ih
  | add _ _ iha ihb | sub _ _ iha ihb | mul _ _ iha ihb | div _ _ iha ihb | pow _ _ iha ihb =>
    simp [iha, ihb]
  | plus _ ih | minus _ ih | group _ ih => simp [ih]
  | number w => simp
  | symbol _ => simp
  | call parts _ _ _ ih =>
    simp only [Tree.within_call_iff, reduceCtorEq, false_or, List.mem_cons, List.mem_append,
      List.not_mem_nil, or_false, ne_eq, not_false_eq_true, mem_commaSeparated, List.mem_map,
      exists_exists_and_eq_and]
    exact exists_congr fun part => and_congr_right (ih part)

/-- The symbols of the tree are named by identifiers among the tokens. -/
theorem Derives.exists_identifier (h : Derives n p ts t) {s : Symbol} (hs : Within (.symbol s) t) :
    ∃ name, Symbol.ofName? name = some s ∧ .identifier name ∈ ts := by
  induction h with
  | ofTerm _ ih | ofUnary _ ih | ofPower _ ih | ofPrimary _ ih => exact ih hs
  | add _ _ iha ihb | sub _ _ iha ihb | mul _ _ iha ihb | div _ _ iha ihb | pow _ _ iha ihb =>
    obtain hs | hs := (Tree.within_binary_iff.mp hs).resolve_left (by simp)
    · obtain ⟨name, hname, hmem⟩ := iha hs
      exact ⟨name, hname, by simp [hmem]⟩
    · obtain ⟨name, hname, hmem⟩ := ihb hs
      exact ⟨name, hname, by simp [hmem]⟩
  | plus _ ih | minus _ ih =>
    obtain ⟨name, hname, hmem⟩ := ih ((Tree.within_signed_iff.mp hs).resolve_left (by simp))
    exact ⟨name, hname, by simp [hmem]⟩
  | group _ ih =>
    obtain ⟨name, hname, hmem⟩ := ih hs
    exact ⟨name, hname, by simp [hmem]⟩
  | number _ => simp at hs
  | symbol hname =>
    cases Tree.within_symbol_iff.mp hs
    exact ⟨_, hname, by simp⟩
  | call parts _ _ _ ih =>
    obtain ⟨a, hmem, hin⟩ := (Tree.within_call_iff.mp hs).resolve_left (by simp)
    obtain ⟨part, hpart, rfl⟩ := List.mem_map.mp hmem
    obtain ⟨name, hname, hmem⟩ := ih part hpart hin
    refine ⟨name, hname, ?_⟩
    have : .identifier name ∈ commaSeparated (parts.map Prod.fst) :=
      (mem_commaSeparated (by simp)).mpr ⟨part.1, List.mem_map_of_mem hpart, hmem⟩
    simp [this]

end InitialValue.Expression
