import Phrasebook.Plural.Rule
import Phrasebook.Proofs.Plural.Acceptance
import Phrasebook.Proofs.Plural.Evaluation
import Phrasebook.Proofs.Plural.Spelling

/-!
# Well-formed programs

What the parser gives is well formed (`Program.WellFormed`, `Program.parse_wellFormed`): its names
are distinct names of the language, the reserved ones first, and its statements use no slot without
a name.  The slots of a tree are the slots of the names in the text, one by one and in the same
order, and its literals stand in the text (`Collects`, `Derives.collects`).
-/

namespace Phrasebook.Plural

/-! ### Slots and literals of derivations -/

/-- The literals of an expression. -/
def Expr.literals : Expr → List Int64
  | .lit v => [v]
  | .var _ => []
  | .unary _ e => e.literals
  | .binary _ l r => l.literals ++ r.literals
  | .cond c t f => c.literals ++ (t.literals ++ f.literals)
  | .assign _ e => e.literals

section
variable {limit depth : Nat} {slotOf : String → Nat} {phrase : Phrase} {ls : List Lexeme}
  {e : Expr} {es : List Expr}

theorem Derives.slots_eq (h : Derives limit slotOf phrase depth ls e) :
    e.slots = (namesOf ls).map slotOf := by
  induction h with
  | value _ _ ih | condition _ ih | chain _ ih | tightest _ _ ih | first _ _ ih
  | primary _ ih => exact ih
  | @assign _ slot ls ms e _ _ _ ihl ihe =>
    have hslots : (Expr.assign slot e).slots = (Expr.var slot).slots ++ e.slots := rfl
    rw [hslots, ihl, ihe, namesOf_append, namesOf_cons_of_none rfl, List.map_append]
  | ternary _ _ _ ihc iht ihf =>
    rw [Expr.slots, ihc, iht, ihf, namesOf_append, namesOf_cons_of_none rfl, namesOf_append,
      namesOf_cons_of_none rfl, List.map_append, List.map_append]
  | next _ _ _ _ ihl ihr =>
    rw [Expr.slots, ihl, ihr, namesOf_append, namesOf_cons_of_none rfl, List.map_append]
  | unary _ _ _ ih => rw [Expr.slots, ih, namesOf_cons_of_none rfl]
  | number v => rfl
  | name x => rfl
  | group _ ih =>
    rw [ih, namesOf_cons_of_none rfl, namesOf_append, namesOf_cons_of_none rfl]
    exact congrArg _ (List.append_nil _).symm

theorem Derives.number_mem (h : Derives limit slotOf phrase depth ls e) :
    ∀ v ∈ e.literals, .number v ∈ ls := by
  induction h with
  | value _ _ ih | condition _ ih | chain _ ih | tightest _ _ ih | first _ _ ih
  | primary _ ih => exact ih
  | assign _ _ _ _ ihe =>
    intro v hv
    exact List.mem_append_right _ (List.mem_cons_of_mem _ (ihe v hv))
  | ternary _ _ _ ihc iht ihf =>
    intro v hv
    rw [List.mem_append, List.mem_cons, List.mem_append, List.mem_cons]
    rcases List.mem_append.1 hv with hv | hv
    · exact .inl (ihc v hv)
    · rcases List.mem_append.1 hv with hv | hv
      · exact .inr (.inr (.inl (iht v hv)))
      · exact .inr (.inr (.inr (.inr (ihf v hv))))
  | next _ _ _ _ ihl ihr =>
    intro v hv
    rcases List.mem_append.1 hv with hv | hv
    · exact List.mem_append_left _ (ihl v hv)
    · exact List.mem_append_right _ (List.mem_cons_of_mem _ (ihr v hv))
  | unary _ _ _ ih =>
    intro v hv
    exact List.mem_cons_of_mem _ (ih v hv)
  | number v =>
    intro w hw
    exact List.mem_singleton.1 hw ▸ List.mem_singleton_self _
  | name x =>
    intro v hv
    exact absurd hv List.not_mem_nil
  | group _ ih =>
    intro v hv
    exact List.mem_cons_of_mem _ (List.mem_append_left _ (ih v hv))

/-! ### Slots and literals of programs -/

/-- The slots of the statements are slots of names in the text, in order; a declarator without a
value gives a name that is not used.  The literals are numbers of the text. -/
def Collects (slotOf : String → Nat) (ls : List Lexeme) (es : List Expr) : Prop :=
  (es.flatMap Expr.slots).Sublist ((namesOf ls).map slotOf) ∧
    ∀ v ∈ es.flatMap Expr.literals, .number v ∈ ls

theorem Derives.collects (h : Derives limit slotOf phrase depth ls e) :
    Collects slotOf ls [e] := by
  have hslots : [e].flatMap Expr.slots = (namesOf ls).map slotOf := by
    rw [List.flatMap_singleton]
    exact h.slots_eq
  refine ⟨hslots ▸ List.Sublist.refl _, ?_⟩
  rw [List.flatMap_singleton]
  exact h.number_mem

theorem Collects.append {ms : List Lexeme} {fs : List Expr} (h : Collects slotOf ls es)
    (separator : Mark) (h' : Collects slotOf ms fs) :
    Collects slotOf (ls ++ .mark separator :: ms) (es ++ fs) := by
  constructor
  · rw [List.flatMap_append, namesOf_append, namesOf_cons_of_none rfl, List.map_append]
    exact h.1.append h'.1
  · intro v hv
    rw [List.flatMap_append, List.mem_append] at hv
    rcases hv with hv | hv
    · exact List.mem_append_left _ (h.2 v hv)
    · exact List.mem_append_right _ (List.mem_cons_of_mem _ (h'.2 v hv))

theorem Separated.collects {separator : Mark} {Part : List Lexeme → List Expr → Prop}
    (hpart : ∀ ls es, Part ls es → Collects slotOf ls es) (h : Separated separator Part ls es) :
    Collects slotOf ls es := by
  induction h with
  | last h => exact hpart _ _ h
  | more h _ ih => exact (hpart _ _ h).append separator ih

theorem DerivesDeclarator.collects (h : DerivesDeclarator limit slotOf ls es) :
    Collects slotOf ls es := by
  cases h with
  | bare x => exact ⟨List.nil_sublist _, fun v hv => absurd hv List.not_mem_nil⟩
  | @initialised x ms e he =>
    obtain ⟨hslots, hnumbers⟩ := he.collects
    rw [List.flatMap_singleton] at hslots hnumbers
    refine ⟨?_, ?_⟩
    · rw [List.flatMap_singleton, namesOf_cons_name, namesOf_cons_of_none rfl]
      exact hslots.cons_cons (slotOf x)
    · rw [List.flatMap_singleton]
      intro v hv
      exact List.mem_cons_of_mem _ (List.mem_cons_of_mem _ (hnumbers v hv))

theorem DerivesStatement.collects (h : DerivesStatement limit slotOf ls es) :
    Collects slotOf ls es := by
  cases h with
  | declaration hd =>
    obtain ⟨hslots, hnumbers⟩ := hd.collects fun _ _ => DerivesDeclarator.collects
    refine ⟨?_, fun v hv => List.mem_cons_of_mem _ (hnumbers v hv)⟩
    rw [namesOf_cons_of_none rfl]
    exact hslots
  | expression he => exact he.collects

theorem DerivesProgram.collects (h : DerivesProgram limit slotOf ls es) :
    Collects slotOf ls es := by
  refine (derivesProgram_iff.1 h).collects ?_
  intro ls es hc
  rcases hc with ⟨rfl, rfl⟩ | hs
  · exact ⟨List.Sublist.refl _, fun v hv => absurd hv List.not_mem_nil⟩
  · exact hs.collects

end

/-! ### Well-formed programs -/

namespace Program

/-- Names are distinct names of the language with the reserved ones first, every slot has a name,
and no literal is negative. -/
structure WellFormed (p : Program) : Prop where
  reserved : reservedNames <+: p.names
  nodup : p.names.Nodup
  isName : ∀ x ∈ p.names, IsName x
  slots : ∀ e ∈ p.statements, ∀ slot ∈ e.slots, slot < p.names.length
  literals : ∀ e ∈ p.statements, ∀ v ∈ e.literals, 0 ≤ v.toInt

theorem mem_namesOf {x : String} {ls : List Lexeme} (h : .name x ∈ ls) : x ∈ namesOf ls :=
  List.mem_filterMap.2 ⟨.name x, h, rfl⟩

theorem name_mem_of_mem_namesOf {x : String} {ls : List Lexeme} (h : x ∈ namesOf ls) :
    .name x ∈ ls := by
  obtain ⟨l, hl, hx⟩ := List.mem_filterMap.1 h
  cases l with
  | name text =>
    obtain rfl : text = x := Option.some.inj hx
    exact hl
  | mark | keyword | sign | number | fault => nomatch hx

theorem parse_wellFormed {source : String} {p : Program} (h : parse source = .ok p) :
    p.WellFormed := by
  obtain ⟨hnames, hd⟩ := parseTokens_reads h
  have hadd : p.names = addNames reservedNames (namesOf (lexemes (scan source))) :=
    hnames.trans (slotNames_eq _)
  obtain ⟨hslots, hnumbers⟩ := hd.collects
  refine ⟨hadd ▸ prefix_addNames _ _, hadd ▸ nodup_addNames (by decide) _, ?_, ?_, ?_⟩
  · intro x hx
    rw [hadd, mem_addNames] at hx
    rcases hx with hx | hx
    · exact isName_of_mem_reservedNames hx
    · exact spelled_of_mem_scan (name_mem_of_mem_namesOf hx) rfl
  · intro e he slot hslot
    have hmem := hslots.subset (List.mem_flatMap.2 ⟨e, he, hslot⟩)
    obtain ⟨x, hx, rfl⟩ := List.mem_map.1 hmem
    refine List.idxOf_lt_length_of_mem ?_
    rw [hadd]
    exact mem_addNames.2 (.inr hx)
  · intro e he v hv
    exact spelled_of_mem_scan (hnumbers v (List.mem_flatMap.2 ⟨e, he, hv⟩)) rfl

end Program

end Phrasebook.Plural

/-! ### Rules -/

namespace Phrasebook.PluralRule

open Plural

theorem compile_of_parse {source : String} {p : Program} (h : Program.parse source = .ok p) :
    compile source = .ok ⟨source, p, declaredCount p⟩ := by
  rw [compile, h]

theorem compile_eq_ok {source : String} {rule : PluralRule} (h : compile source = .ok rule) :
    Program.parse source = .ok rule.program ∧ rule.nplurals = declaredCount rule.program := by
  unfold compile at h
  split at h
  · next p hp =>
    cases h
    exact ⟨hp, rfl⟩
  · cases h

theorem compile_eq_error {source : String} {e : InvalidPluralForms}
    (h : compile source = .error e) :
    e.source = source ∧ Program.parse source = .error e.error := by
  unfold compile at h
  split at h
  · cases h
  · next e' he =>
    cases h
    exact ⟨rfl, he⟩

end Phrasebook.PluralRule
