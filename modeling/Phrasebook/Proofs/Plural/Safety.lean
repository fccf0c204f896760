import Phrasebook.Proofs.Plural.Arithmetic
import Phrasebook.Proofs.Plural.Locations
import Phrasebook.Proofs.Plural.WellFormed

/-!
# Compiling and running stay in bounds

Whatever the source is, compiling it cuts texts only between two characters of it, and every run
of the rule that comes out finds all its slots in the environment (`exists_run_length`,
`exists_run_index`).
-/

namespace Phrasebook.PluralRule

open Plural

/-- The environment of a run has one place for each name. -/
theorem exists_run_length {p : Program} (h : p.WellFormed) (n : Int64) :
    ∃ env, p.run n = some env ∧ env.length = p.names.length := by
  obtain ⟨env, hrun, hlen⟩ := Program.exists_run h.slots n
  refine ⟨env, hrun, hlen.trans ?_⟩
  have hle : reservedNames.length ≤ p.names.length := h.reserved.length_le
  exact Nat.max_eq_left hle

/-- Every run of a rule leaves its index in the slot of `plural`. -/
theorem exists_run_index {source : String} {rule : PluralRule} (h : compile source = .ok rule)
    (n : Int64) :
    ∃ env, rule.program.run n = some env ∧ env[pluralSlot]? = some (rule.index n) := by
  have hwf := Program.parse_wellFormed (compile_eq_ok h).1
  obtain ⟨env, hrun, hlen⟩ := exists_run_length hwf n
  have hslot : pluralSlot < env.length :=
    hlen ▸ Nat.lt_of_lt_of_le (by decide) hwf.reserved.length_le
  refine ⟨env, hrun, ?_⟩
  rw [index, hrun, Option.bind_some, List.getElem?_eq_getElem hslot]
  rfl

/-- Tokens and errors are cut from the source between two of its characters; a rule has a
well-formed program, every run of it finds its slots, and every operator has a value. -/
theorem compile_in_bounds (source : String) :
    (∀ t ∈ scan source, StandsAt source t.start t.written ∧
      (⟨t.start, t.stop⟩ : Span).slice source = t.written) ∧
    (∀ e, compile source = .error e →
      e.source = source ∧ e.error.offset ≤ source.utf8ByteSize ∧
        StandsAt source e.error.offset e.error.cause.quoted) ∧
    (∀ rule, compile source = .ok rule → rule.program.WellFormed ∧
      ∀ n, ∃ env, rule.program.run n = some env ∧ env.length = rule.program.names.length) ∧
    (∀ (op : UnaryOperator) (v : Int64),
      (op.apply v).toInt = (op.exact v.toInt).bmod (maxUInt64 + 1)) ∧
    ∀ (op : BinaryOperator) (l r : Int64),
      (op.apply l r).toInt = (op.exact l.toInt r.toInt).bmod (maxUInt64 + 1) := by
  refine ⟨?_, ?_, ?_, UnaryOperator.toInt_apply, BinaryOperator.toInt_apply⟩
  · intro t ht
    have hstands := standsAt_of_mem_scan ht
    exact ⟨hstands, hstands.slice⟩
  · intro e he
    obtain ⟨hsource, hparse⟩ := compile_eq_error he
    have hstands := Program.standsAt_of_parse_error hparse
    refine ⟨hsource, ?_, hstands⟩
    have := hstands.le
    omega
  · intro rule hrule
    obtain ⟨hparse, -⟩ := compile_eq_ok hrule
    have hwf := Program.parse_wellFormed hparse
    exact ⟨hwf, exists_run_length hwf⟩

end Phrasebook.PluralRule
