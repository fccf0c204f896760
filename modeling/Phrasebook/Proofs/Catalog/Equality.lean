import Phrasebook.Proofs.Catalog.Coverage
import Phrasebook.Proofs.Tables

/-!
# Equal catalogs

Catalogs are compared by their language, their messages and their plural program (`Agrees`,
`beq_iff_agrees`).  Neither the order of contexts and ids nor the text of the header has a part in
it, and no look-up can tell equal catalogs apart (`Agrees.textOrVariant_eq`, `Agrees.pluralIn_eq`).

The comparison finds the entries of one table in another one of the same size.  Keys do not repeat,
so there are no others in it (`rel_get?_of_found`).
-/

namespace Phrasebook

namespace Catalog

/-! ### Tables -/

section
variable {α : Type} {same : α → α → Bool} {t u : Table α}

/-- Where all entries of a table are found in another one of the same size, nothing else is. -/
theorem rel_get?_of_found (hsize : t.size = u.size)
    (hfound : ∀ key a, t.get? key = some a → ∃ b, u.get? key = some b ∧ same a b = true)
    (key : String) : Option.Rel (fun a b => same a b = true) (t.get? key) (u.get? key) := by
  have hsub : t.keys ⊆ u.keys := fun key hkey => by
    obtain ⟨a, ha⟩ := Table.mem_keys_iff.1 hkey
    obtain ⟨b, hb, -⟩ := hfound key a ha
    exact Table.mem_keys_iff.2 ⟨b, hb⟩
  have hperm : t.keys.Perm u.keys := Table.keys_perm_of_subset hsize hsub
  cases ht : t.get? key with
  | some a =>
    obtain ⟨b, hb, hab⟩ := hfound key a ht
    rw [hb]
    exact .some hab
  | none =>
    have hkey : key ∉ u.keys := fun hkey => by
      obtain ⟨a, ha⟩ := Table.mem_keys_iff.1 (hperm.mem_iff.2 hkey)
      rw [ht] at ha
      cases ha
    rw [Option.eq_none_iff_forall_ne_some.2 fun b hb => hkey (Table.mem_keys_iff.2 ⟨b, hb⟩)]
    exact .none

theorem sameEntries_iff : sameEntries same t u = true ↔
    ∀ key, Option.Rel (fun a b => same a b = true) (t.get? key) (u.get? key) := by
  rw [sameEntries, Bool.and_eq_true, decide_eq_true_eq, List.all_eq_true]
  constructor
  · rintro ⟨hsize, hall⟩
    refine rel_get?_of_found hsize fun key a ha => ?_
    have hany := hall (key, a) ((t.get?_eq_some_iff key a).1 ha)
    exact (Option.any_eq_true _ _).1 hany
  · intro h
    refine ⟨Table.size_eq_of_mem_keys_iff fun key => ?_, fun e he => ?_⟩
    · have hkey := h key
      rw [Table.mem_keys_iff, Table.mem_keys_iff]
      generalize t.get? key = a?, u.get? key = b? at hkey
      cases hkey <;> simp
    · have hkey := h e.1
      rw [(t.get?_eq_some_iff e.1 e.2).2 he] at hkey
      generalize u.get? e.1 = b? at hkey
      cases hkey with
      | some hab => exact hab

/-- Tables with the same entries are known by their look-ups. -/
theorem sameEntries_eq_iff [DecidableEq α] :
    sameEntries (fun a b => decide (a = b)) t u = true ↔ ∀ key, t.get? key = u.get? key := by
  rw [sameEntries_iff]
  refine forall_congr' fun key => ?_
  generalize t.get? key = a?, u.get? key = b?
  constructor
  · rintro (hab | _)
    · rw [of_decide_eq_true hab]
    · rfl
  · rintro rfl
    cases a? with
    | none => exact .none
    | some a => exact .some (decide_eq_true rfl)

end

/-! ### Messages -/

theorem sameMessages_iff {m m' : Messages} :
    sameEntries (sameEntries fun s t => decide (s = t)) m m' = true ↔
      (∀ context, m.contains context = m'.contains context) ∧
      ∀ context id, (m.get? context).bind (·.get? id) = (m'.get? context).bind (·.get? id) := by
  rw [sameEntries_iff, ← forall_and]
  refine forall_congr' fun context => ?_
  rw [Table.contains, Table.contains]
  generalize m.get? context = c?, m'.get? context = c'?
  constructor
  · rintro (hc | _)
    · exact ⟨rfl, sameEntries_eq_iff.1 hc⟩
    · exact ⟨rfl, fun _ => rfl⟩
  · rintro ⟨hsome, hids⟩
    cases c? with
    | none =>
      cases c'? with
      | none => exact .none
      | some c' => cases hsome
    | some c =>
      cases c'? with
      | none => cases hsome
      | some c' => exact .some (sameEntries_eq_iff.2 hids)

/-! ### Catalogs -/

/-- What equal catalogs have in common. -/
structure Agrees (c d : Catalog) : Prop where
  lang : c.lang = d.lang
  contexts : ∀ context, c.messages.contains context = d.messages.contains context
  entries : ∀ context id, c.entry? context id = d.entry? context id
  program : c.rule.program = d.rule.program

theorem beq_iff_agrees {c d : Catalog} : (c == d) = true ↔ c.Agrees d := by
  show (c.lang == d.lang && sameEntries (sameEntries fun s t => decide (s = t)) c.messages d.messages
    && decide (c.rule.program = d.rule.program)) = true ↔ _
  rw [Bool.and_eq_true, Bool.and_eq_true, beq_iff_eq, sameMessages_iff, decide_eq_true_eq]
  constructor
  · rintro ⟨⟨hlang, hcontexts, hentries⟩, hprogram⟩
    exact ⟨hlang, hcontexts, hentries, hprogram⟩
  · rintro ⟨hlang, hcontexts, hentries, hprogram⟩
    exact ⟨⟨hlang, hcontexts, hentries⟩, hprogram⟩

namespace Agrees

variable {c d e : Catalog}

theorem refl (c : Catalog) : c.Agrees c :=
  ⟨rfl, fun _ => rfl, fun _ _ => rfl, rfl⟩

theorem symm (h : c.Agrees d) : d.Agrees c :=
  ⟨h.lang.symm, fun context => (h.contexts context).symm,
    fun context id => (h.entries context id).symm, h.program.symm⟩

theorem trans (h : c.Agrees d) (h' : d.Agrees e) : c.Agrees e :=
  ⟨h.lang.trans h'.lang, fun context => (h.contexts context).trans (h'.contexts context),
    fun context id => (h.entries context id).trans (h'.entries context id),
    h.program.trans h'.program⟩

theorem index_eq (h : c.Agrees d) (n : Int64) : c.rule.index n = d.rule.index n := by
  rw [PluralRule.index, PluralRule.index, h.program]

theorem textOrVariant_eq (h : c.Agrees d) (k : Nat) (context id : String) :
    c.textOrVariant k context id = d.textOrVariant k context id := by
  rw [textOrVariant, textOrVariant, h.entries]

theorem variantFor?_eq (h : c.Agrees d) (context id : String) (n : Int64) :
    c.variantFor? context id n = d.variantFor? context id n := by
  rw [variantFor?, variantFor?, h.index_eq, h.entries]

theorem pluralIn_eq (h : c.Agrees d) (context id idPlural : String) (n : Int64) :
    c.pluralIn context id idPlural n = d.pluralIn context id idPlural n := by
  rw [pluralIn, pluralIn, h.variantFor?_eq]

end Agrees

/-- The catalogs that there are: those of documents, and the one without messages. -/
inductive Built : Catalog → Prop
  | compiled {document : Document} {options : Options} {c : Catalog} :
      (compile document options).1 = .ok c → Built c
  | empty : Built .empty

theorem Built.exists_source {c : Catalog} (h : c.Built) :
    ∃ source, PluralRule.compile source = .ok c.rule := by
  cases h with
  | compiled h => exact (eq_ruledBy_of_compile h).1
  | empty => exact ⟨_, PluralRule.compile_defaultForms⟩

/-- The number of variants is kept beside the program, but it is always what the program declares. -/
theorem Built.nplurals_eq {c : Catalog} (h : c.Built) :
    c.rule.nplurals = PluralRule.declaredCount c.rule.program := by
  obtain ⟨source, hsource⟩ := h.exists_source
  exact (PluralRule.compile_eq_ok hsource).2

/-- Equality of catalogs is an equivalence.  It holds of catalogs that agree on what they are
compared by, and no look-up tells them apart. -/
theorem equal_answer_alike :
    Equivalence (fun c d : Catalog => (c == d) = true) ∧
    (∀ c d : Catalog, (c == d) = true ↔ c.Agrees d) ∧
    ∀ c d : Catalog, (c == d) = true →
      (∀ id, c.text id = d.text id) ∧
      (∀ context id, c.textIn context id = d.textIn context id) ∧
      (∀ id idPlural n, c.plural id idPlural n = d.plural id idPlural n) ∧
      (∀ context id idPlural n,
        c.pluralIn context id idPlural n = d.pluralIn context id idPlural n) ∧
      (∀ n, c.rule.index n = d.rule.index n) ∧
      c.rule.program.text = d.rule.program.text ∧
      (c.Built → d.Built → c.rule.nplurals = d.rule.nplurals) := by
  refine ⟨⟨fun c => ?_, fun h => ?_, fun h h' => ?_⟩, fun c d => beq_iff_agrees, fun c d h => ?_⟩
  · exact beq_iff_agrees.2 (.refl c)
  · exact beq_iff_agrees.2 (beq_iff_agrees.1 h).symm
  · exact beq_iff_agrees.2 ((beq_iff_agrees.1 h).trans (beq_iff_agrees.1 h'))
  · have hagrees := beq_iff_agrees.1 h
    refine ⟨hagrees.textOrVariant_eq 1 defaultContext, hagrees.textOrVariant_eq 0,
      hagrees.pluralIn_eq defaultContext, hagrees.pluralIn_eq, hagrees.index_eq, ?_, ?_⟩
    · rw [hagrees.program]
    · intro hc hd
      rw [hc.nplurals_eq, hd.nplurals_eq, hagrees.program]

/-- The default header, spelled without parentheses. -/
def menu : Document where
  pluralForms := some "nplurals=2;plural=n!=1"
  lang := none
  messages := .ofList
    [("menu", .ofList [("berry", .plural ["malina", "maliny"]), ("tea", .single "čaj")]),
      ("", .ofList [("hello", .single "ahoj")])]

/-- The same contexts and ids in another order. -/
def menuReordered : Document where
  pluralForms := none
  lang := some "en"
  messages := .ofList
    [("", .ofList [("hello", .single "ahoj")]),
      ("menu", .ofList [("tea", .single "čaj"), ("berry", .plural ["malina", "maliny"])])]

theorem parse_menu :
    Plural.Program.parse "nplurals=2;plural=n!=1" = .ok PluralRule.english.program := by
  have hlexemes : Plural.lexemes (Plural.scan "nplurals=2;plural=n!=1") =
      [.name "nplurals", .sign .assign, .number 2, .mark .semicolon, .name "plural", .sign .assign,
        .name "n", .sign (.operator .notEquals), .number 1] := by decide +kernel
  have hcount : Plural.Derives Plural.maxNesting Plural.reservedNames.idxOf .assignment 0 _
      (.assign Plural.npluralsSlot (.lit 2)) :=
    .assign_operand "nplurals" (by decide) (.primary (.number 2))
  have hcomparison : Plural.Derives Plural.maxNesting Plural.reservedNames.idxOf .conditional 2 _
      (.binary .notEquals (.var Plural.countSlot) (.lit 1)) :=
    .binary .notEquals (by decide) (.primary (.name "n")) (.primary (.number 1))
  have hvariant := Plural.Derives.assign_name "plural" (by decide) (.value (by decide) hcomparison)
  exact Plural.Program.parse_of_derives hlexemes (by decide)
    (.statement (.expression hcount) (.last (.expression hvariant)))

theorem equal_answer_alike_of_menus : ∃ c d, (compile menu {}).1 = .ok c ∧
    (compile menuReordered {}).1 = .ok d ∧ c.messages.keys ≠ d.messages.keys ∧
    c.rule.source ≠ d.rule.source ∧ (c == d) = true ∧ (d == c) = true ∧
    (∀ n, c.pluralIn "menu" "berry" "berries" n = d.pluralIn "menu" "berry" "berries" n) ∧
    c.rule.nplurals = d.rule.nplurals := by
  have hc : (compile menu {}).1 = .ok (ruledBy menu {} _) :=
    compile_of_header rfl (PluralRule.compile_of_parse parse_menu)
  have hd : (compile menuReordered {}).1 = .ok (ruledBy menuReordered {} .english) := by
    rw [compile_of_ok (by rw [menuReordered, ruleOf?, PluralRule.compile_defaultForms])]
  have hequal : (ruledBy menu {} ⟨"nplurals=2;plural=n!=1", PluralRule.english.program,
      PluralRule.declaredCount PluralRule.english.program⟩ ==
        ruledBy menuReordered {} .english) = true := by
    decide +kernel
  obtain ⟨hequivalence, -, halike⟩ := equal_answer_alike
  obtain ⟨-, -, -, hpluralIn, -, -, hnplurals⟩ := halike _ _ hequal
  exact ⟨_, _, hc, hd, by decide, by decide, hequal, hequivalence.symm hequal,
    hpluralIn "menu" "berry" "berries", hnplurals (.compiled hc) (.compiled hd)⟩

end Catalog

end Phrasebook
