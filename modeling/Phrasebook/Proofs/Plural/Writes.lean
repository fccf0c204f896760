import Phrasebook.Proofs.Plural.Frames
import Phrasebook.Proofs.Plural.Safety

/-!
# Slots that a header does not assign

A slot that no statement assigns ends a run as it began: the count in its own slot, zero in any
other (`Program.getElem?_of_run`).  So a header whose first statement gives the number of variants,
and no later one changes it, declares that number, and every run ends with it
(`declaredCount_of_first`).
-/

namespace Phrasebook.Plural

/-! ### Runs -/

namespace Program

variable {p : Program} {n : Int64} {env : Env}

theorem writesOnly_of_run (h : p.run n = some env) :
    WritesOnly (fun slot => p.assigns slot) (p.start n) env :=
  writesOnly_of_runAll h

theorem length_of_run (h : p.run n = some env) :
    env.length = max p.names.length reservedNames.length :=
  (writesOnly_of_run h).length.trans (p.length_start n)

theorem getElem?_of_run {slot : Nat} (h : p.run n = some env) (hslot : slot < env.length)
    (hassigns : p.assigns slot = false) : env[slot]? = some (if slot = countSlot then n else 0) := by
  rw [(writesOnly_of_run h).kept slot hassigns]
  exact p.getElem?_start n (length_of_run h ▸ hslot)

/-- What the first statement assigns to a slot is there in the end, unless a later one writes it. -/
theorem getElem?_of_run_of_first {slot : Nat} {k : Int64} {later : List Expr}
    (hfirst : p.statements = .assign slot (.lit k) :: later)
    (hslot : slot < max p.names.length reservedNames.length)
    (hlater : ∀ e ∈ later, e.assigns slot = false) (h : p.run n = some env) :
    env[slot]? = some k := by
  have hstart : slot < (p.start n).length := by rwa [length_start]
  have hassign : (Expr.assign slot (.lit k)).eval (p.start n) = some (k, (p.start n).set slot k) :=
    Expr.eval_assign rfl hstart
  have hkept : later.any (Expr.assigns slot) = false := by
    rw [List.any_eq_false]
    exact fun e he => Bool.eq_false_iff.1 (hlater e he)
  rw [run_eq_runAll, hfirst, runAll_cons hassign] at h
  rw [(writesOnly_of_runAll h).kept slot hkept, List.getElem?_set_self hstart]

end Program

end Phrasebook.Plural

namespace Phrasebook.PluralRule

open Plural

/-! ### Declared counts -/

/-- A program that begins with the number of variants declares it, and every run ends with it. -/
theorem declaredCount_of_first {p : Program} (hp : p.WellFormed) {k : Int64} {later : List Expr}
    (hfirst : p.statements = .assign npluralsSlot (.lit k) :: later)
    (hlater : ∀ e ∈ later, e.assigns npluralsSlot = false) :
    (declaredCount p).map Int.ofNat = some k.toInt ∧
      ∀ n, ∃ env, p.run n = some env ∧ env[npluralsSlot]? = some k := by
  have hslot : npluralsSlot < max p.names.length reservedNames.length :=
    Nat.lt_of_lt_of_le (by decide) (Nat.le_max_right _ _)
  have hruns : ∀ n, ∃ env, p.run n = some env ∧ env[npluralsSlot]? = some k := by
    intro n
    obtain ⟨env, hrun, -⟩ := exists_run_length hp n
    exact ⟨env, hrun, Program.getElem?_of_run_of_first hfirst hslot hlater hrun⟩
  have hliteral : 0 ≤ k.toInt :=
    hp.literals (.assign npluralsSlot (.lit k)) (hfirst ▸ List.mem_cons_self) k
      (List.mem_singleton_self k)
  obtain ⟨m, hm⟩ := Int.eq_ofNat_of_zero_le hliteral
  have hassigns : p.assigns npluralsSlot = true := by
    rw [Program.assigns, hfirst, List.any_cons, Expr.assigns, decide_eq_true rfl]
    rfl
  obtain ⟨env, hrun, hvalue⟩ := hruns 0
  refine ⟨?_, hruns⟩
  rw [declaredCount, if_pos hassigns, hrun]
  show ((env[npluralsSlot]?).bind variantNumber?).map Int.ofNat = some k.toInt
  rw [hvalue, Option.bind_some, variantNumber?_eq_some_iff.2 hm, hm]
  rfl

/-- An evaluation leaves alone what the expression does not assign, however much of it is skipped.
So a slot that no statement assigns ends a run as it began it, and a number of variants that only
the first statement sets is the one that the header declares. -/
theorem unassigned_unchanged :
    (∀ (e : Expr) (slot : Nat) (env : Env),
      ((∀ i ∈ e.slots, i < env.length) → ∃ v env₁, e.eval env = some (v, env₁)) ∧
      ∀ v env₁, e.eval env = some (v, env₁) → env₁.length = env.length ∧
        (e.assigns slot = false → env₁[slot]? = env[slot]?)) ∧
    (∀ (p : Program) (n : Int64),
      ((∀ e ∈ p.statements, ∀ i ∈ e.slots, i < max p.names.length reservedNames.length) →
        ∃ env, p.run n = some env) ∧
      ∀ env, p.run n = some env → env.length = max p.names.length reservedNames.length ∧
        ∀ slot < env.length, p.assigns slot = false →
          env[slot]? = some (if slot = countSlot then n else 0)) ∧
    ∀ (source : String) (rule : PluralRule) (k : Int64) (later : List Expr),
      compile source = .ok rule →
      rule.program.statements = .assign npluralsSlot (.lit k) :: later →
      (∀ e ∈ later, e.assigns npluralsSlot = false) →
      rule.nplurals.map Int.ofNat = some k.toInt ∧
        ∀ n, ∃ env, rule.program.run n = some env ∧ env[npluralsSlot]? = some k := by
  refine ⟨?_, ?_, ?_⟩
  · intro e slot env
    refine ⟨fun hslots => ?_, fun v env₁ h => ?_⟩
    · obtain ⟨v, env₁, h, -⟩ := Expr.exists_eval hslots
      exact ⟨v, env₁, h⟩
    · exact ⟨(Expr.writesOnly_of_eval h).length, (Expr.writesOnly_of_eval h).kept slot⟩
  · intro p n
    refine ⟨fun hslots => ?_, fun env h => ?_⟩
    · rw [← p.length_start n] at hslots
      obtain ⟨env, h, -⟩ := exists_runAll hslots
      exact ⟨env, h⟩
    · exact ⟨Program.length_of_run h, fun slot => Program.getElem?_of_run h⟩
  · intro source rule k later h hfirst hlater
    obtain ⟨hparse, hcount⟩ := compile_eq_ok h
    rw [hcount]
    exact declaredCount_of_first (Program.parse_wellFormed hparse) hfirst hlater

/-- The second statement has an assignment in a condition, but none of the number of variants. -/
def threeForms : Program where
  statements :=
    [.assign npluralsSlot (.lit 3),
      .assign pluralSlot (.cond (.assign 3 (.var countSlot)) (.lit 2) (.var 3))]
  names := ["n", "plural", "nplurals", "k"]

theorem parse_threeForms :
    Program.parse "nplurals=3; plural=(k=n) ? 2 : k;" = .ok threeForms := by
  have hlexemes : lexemes (scan "nplurals=3; plural=(k=n) ? 2 : k;") =
      [.name "nplurals", .sign .assign, .number 3, .mark .semicolon, .name "plural", .sign .assign,
        .mark .openParen, .name "k", .sign .assign, .name "n", .mark .closeParen, .sign .question,
        .number 2, .mark .colon, .name "k", .mark .semicolon] := by decide +kernel
  have hcount : Derives maxNesting threeForms.names.idxOf .assignment 0 _
      (.assign npluralsSlot (.lit 3)) :=
    .assign_operand "nplurals" (by decide) (.primary (.number 3))
  have hstored : Derives maxNesting threeForms.names.idxOf .operand 2 _
      (.assign 3 (.var countSlot)) :=
    .primary (.group (.assign_operand "k" (by decide) (.primary (.name "n"))))
  have hchoice : Derives maxNesting threeForms.names.idxOf .conditional 2 _
      (.cond (.assign 3 (.var countSlot)) (.lit 2) (.var 3)) :=
    .ternary (hstored.chain_of_operand (Nat.zero_le 6))
      (.assignment_of_operand (by decide) (.primary (.number 2)))
      (.assignment_of_operand (by decide) (.primary (.name "k")))
  have hvariant := Derives.assign_name "plural" (by decide) (.value (by decide) hchoice)
  exact Program.parse_of_derives hlexemes (by decide)
    (.statement (.expression hcount) (.statement (.expression hvariant) .nil))

theorem unassigned_unchanged_of_threeForms :
    ∃ rule, compile "nplurals=3; plural=(k=n) ? 2 : k;" = .ok rule ∧ rule.program = threeForms ∧
      rule.nplurals.map Int.ofNat = some 3 ∧
      ∀ n, ∃ env, rule.program.run n = some env ∧ env[npluralsSlot]? = some 3 := by
  have hcompile := compile_of_parse parse_threeForms
  refine ⟨_, hcompile, rfl, ?_⟩
  refine unassigned_unchanged.2.2 _ _ 3 _ hcompile rfl ?_
  rw [List.forall_mem_singleton]
  rfl

end Phrasebook.PluralRule
