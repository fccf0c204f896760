import Phrasebook.Proofs.Plural.Frames
import Phrasebook.Proofs.Plural.Reparsing
import Phrasebook.Proofs.Plural.Viability

/-!
# Headers joined by `;`

Two headers with `;` between them are one header that does what both do, one after the other
(`Joins`, `exists_parse_join`): the statements of the second run in the environment that the first
leaves, where its names find what the first has stored under them (`runAll_slotIn`).  If one of the
two is refused, the whole is refused in the same place (`parse_join_of_error_left`,
`parse_join_of_error_right`).
-/

namespace Phrasebook.Plural

/-! ### Names of both -/

section
variable {names xs ys : List String}

theorem addName_of_mem {x : String} (h : x ∈ names) : addName names x = names :=
  if_pos h

theorem addNames_of_subset (h : ∀ x ∈ xs, x ∈ names) : addNames names xs = names := by
  induction xs with
  | nil => rfl
  | cons x xs ih =>
    obtain ⟨hx, hxs⟩ := List.forall_mem_cons.1 h
    rw [addNames_cons, addName_of_mem hx, ih hxs]

/-- Names that have been added to others are added with them. -/
theorem addNames_addNames (names xs ys : List String) :
    addNames names (addNames xs ys) = addNames (addNames names xs) ys := by
  induction ys generalizing xs with
  | nil => rfl
  | cons y ys ih =>
    rw [addNames_cons, ih, addNames_cons]
    congr 1
    by_cases hy : y ∈ xs
    · rw [addName_of_mem hy, addName_of_mem (mem_addNames.2 (.inr hy))]
    · rw [addName, if_neg hy, addNames_append]
      rfl

end

/-! ### Derivations with other slots -/

section
variable {limit : Nat} {slotOf slotOf' : String → Nat} {f : Nat → Nat}

theorem Derives.rename {depth : Nat} {phrase : Phrase} {ls : List Lexeme} {e : Expr}
    (h : Derives limit slotOf phrase depth ls e)
    (hf : ∀ x, .name x ∈ ls → slotOf' x = f (slotOf x)) :
    Derives limit slotOf' phrase depth ls (e.rename f) := by
  have left {ls ms : List Lexeme} (hf : ∀ x, Lexeme.name x ∈ ls ++ ms → slotOf' x = f (slotOf x))
      (x : String) (hx : .name x ∈ ls) : slotOf' x = f (slotOf x) :=
    hf x (List.mem_append_left _ hx)
  have right {ls ms : List Lexeme} {l : Lexeme}
      (hf : ∀ x, Lexeme.name x ∈ ls ++ l :: ms → slotOf' x = f (slotOf x))
      (x : String) (hx : .name x ∈ ms) : slotOf' x = f (slotOf x) :=
    hf x (List.mem_append_right _ (List.mem_cons_of_mem _ hx))
  induction h with
  | value hlt _ ih => exact .value hlt (ih hf)
  | assign hlt _ _ ihl ihe => exact .assign hlt (ihl (left hf)) (ihe (right hf))
  | condition _ ih => exact .condition (ih hf)
  | ternary _ _ _ ihc iht ihf =>
    exact .ternary (ihc (left hf)) (iht (left (right hf))) (ihf (right (right hf)))
  | chain _ ih => exact .chain (ih hf)
  | tightest hlevel _ ih => exact .tightest hlevel (ih hf)
  | first hlevel _ ih => exact .first hlevel (ih hf)
  | next _ hop hle _ ihl ihr => exact .next (ihl (left hf)) hop hle (ihr (right hf))
  | unary hop hlt _ ih =>
    exact .unary hop hlt (ih fun x hx => hf x (List.mem_cons_of_mem _ hx))
  | primary _ ih => exact .primary (ih hf)
  | number v => exact .number v
  | name x =>
    rw [Expr.rename, ← hf x (List.mem_singleton_self _)]
    exact .name x
  | group _ ih =>
    refine .group (ih fun x hx => hf x (List.mem_cons_of_mem _ ?_))
    exact List.mem_append_left _ hx

variable {ls : List Lexeme} {es : List Expr}

theorem DerivesDeclarator.rename (h : DerivesDeclarator limit slotOf ls es)
    (hf : ∀ x, .name x ∈ ls → slotOf' x = f (slotOf x)) :
    DerivesDeclarator limit slotOf' ls (es.map (Expr.rename f)) := by
  cases h with
  | bare x => exact .bare x
  | @initialised x _ _ he =>
    have hvalue := he.rename fun y hy =>
      hf y (List.mem_cons_of_mem _ (List.mem_cons_of_mem _ hy))
    rw [List.map_singleton, Expr.rename, ← hf x List.mem_cons_self]
    exact .initialised hvalue

theorem Separated.rename {separator : Mark} {Part Part' : List Lexeme → List Expr → Prop}
    (hpart : ∀ {ls es}, Part ls es → (∀ x, Lexeme.name x ∈ ls → slotOf' x = f (slotOf x)) →
      Part' ls (es.map (Expr.rename f)))
    (h : Separated separator Part ls es) (hf : ∀ x, .name x ∈ ls → slotOf' x = f (slotOf x)) :
    Separated separator Part' ls (es.map (Expr.rename f)) := by
  induction h with
  | last hp => exact .last (hpart hp hf)
  | more hp _ ih =>
    rw [List.map_append]
    refine .more (hpart hp fun x hx => hf x (List.mem_append_left _ hx)) (ih fun x hx => hf x ?_)
    exact List.mem_append_right _ (List.mem_cons_of_mem _ hx)

theorem DerivesClause.rename (h : DerivesClause limit slotOf ls es)
    (hf : ∀ x, .name x ∈ ls → slotOf' x = f (slotOf x)) :
    DerivesClause limit slotOf' ls (es.map (Expr.rename f)) := by
  rcases h with ⟨rfl, rfl⟩ | hs
  · exact .inl ⟨rfl, rfl⟩
  · cases hs with
    | declaration hd =>
      refine .inr (.declaration (hd.rename (fun hp => hp.rename) fun x hx => hf x ?_))
      exact List.mem_cons_of_mem _ hx
    | expression he => exact .inr (.expression (he.rename hf))

theorem DerivesProgram.rename (h : DerivesProgram limit slotOf ls es)
    (hf : ∀ x, .name x ∈ ls → slotOf' x = f (slotOf x)) :
    DerivesProgram limit slotOf' ls (es.map (Expr.rename f)) := by
  refine derivesProgram_iff.2 ((derivesProgram_iff.1 h).rename (fun hc hf => ?_) hf)
  exact hc.rename hf

end

theorem Separated.append {separator : Mark} {Part : List Lexeme → List Expr → Prop}
    {ls ms : List Lexeme} {es fs : List Expr} (h : Separated separator Part ls es)
    (h' : Separated separator Part ms fs) :
    Separated separator Part (ls ++ .mark separator :: ms) (es ++ fs) := by
  induction h with
  | last hp => exact .more hp h'
  | more hp _ ih =>
    rw [List.append_assoc, List.cons_append, List.append_assoc]
    exact .more hp ih

/-! ### Both are stuck in the same places -/

section
variable {separator : Mark} {Part : List Lexeme → List Expr → Prop}
  {StuckPart : Option Lexeme → List Lexeme → Obstacle → Prop} {next : Option Lexeme}
  {ls ms : List Lexeme} {o : Obstacle}

/-- What is stuck at the end is stuck before a separator. -/
theorem StuckSeparated.before_separator (h : StuckSeparated separator Part StuckPart none ls o) :
    StuckSeparated separator Part StuckPart (some (.mark separator)) ls o := by
  have hnext : nextIn separator none = nextIn separator (some (.mark separator)) :=
    (if_neg fun h => nomatch h).trans (if_pos rfl).symm
  induction h with
  | first hs => exact .first (hnext ▸ hs)
  | later hp _ ih => exact .later hp ih

theorem StuckSeparated.behind {es : List Expr} (hparts : Separated separator Part ls es)
    (h : StuckSeparated separator Part StuckPart next ms o) :
    StuckSeparated separator Part StuckPart next (ls ++ .mark separator :: ms) o := by
  induction hparts with
  | last hp => exact .later hp h
  | more hp _ ih =>
    rw [List.append_assoc, List.cons_append]
    exact .later hp ih

end

/-! ### The tokens of both -/

def Stop.shift (bytes : Nat) : Stop → Stop
  | token t => token (t.shift bytes)
  | endOfText length => endOfText (bytes + length)

theorem Stop.ahead_shift (bytes : Nat) (stop : Stop) (ts : List Token) :
    (stop.shift bytes).ahead (ts.map (Token.shift bytes)) = (stop.ahead ts).shift bytes := by
  cases ts <;> rfl

theorem Obstacle.error_shift (bytes : Nat) (next : Stop) (o : Obstacle) :
    o.error (next.shift bytes) = ⟨(o.error next).cause, bytes + (o.error next).offset⟩ := by
  cases next with
  | endOfText length => cases o <;> rfl
  | token t =>
    cases o with
    | tooDeep | invalidTarget => rfl
    | wanted w =>
      obtain ⟨start, written, l⟩ := t
      cases l <;> rfl

theorem lexemes_shift (bytes : Nat) (ts : List Token) :
    lexemes (ts.map (Token.shift bytes)) = lexemes ts :=
  List.map_map

section
variable {a b : String}

theorem toList_join (a b : String) : (a ++ ";" ++ b).toList = a.toList ++ ';' :: b.toList := by
  rw [String.toList_append, String.toList_append, List.append_assoc]
  rfl

theorem utf8ByteSize_join (a b : String) :
    (a ++ ";" ++ b).utf8ByteSize = a.utf8ByteSize + 1 + b.utf8ByteSize := by
  rw [String.utf8ByteSize_append, String.utf8ByteSize_append]
  rfl

theorem scan_join (h : ¬ Faulty (scan a)) :
    scan (a ++ ";" ++ b) = scan a ++ ⟨a.utf8ByteSize, ";", .mark .semicolon⟩ ::
      (scan b).map (Token.shift (a.utf8ByteSize + 1)) := by
  rw [scan, toList_join, scanFrom_append (inert_semicolon _) h, scanFrom_semicolon, Nat.zero_add,
    utf8Length_toList, ← Nat.add_zero (a.utf8ByteSize + 1), scanFrom_add]
  rfl

theorem scan_join_of_faulty (h : Faulty (scan a)) : scan (a ++ ";" ++ b) = scan a := by
  rw [scan, toList_join, scanFrom_append_of_faulty (inert_semicolon _) h]
  rfl

theorem lexemes_scan_join (h : ¬ Faulty (scan a)) :
    lexemes (scan (a ++ ";" ++ b)) =
      lexemes (scan a) ++ .mark .semicolon :: lexemes (scan b) := by
  rw [scan_join h, lexemes_append, lexemes_cons, lexemes_shift]

end

/-! ### Values by name -/

/-- The value that the environment has under the name, and zero if it does not have the name. -/
def valueOf (names : List String) (env : Env) (x : String) : Int64 :=
  env[names.idxOf x]?.getD 0

section
variable {names : List String} {env : Env}

theorem valueOf_of_not_mem (hlen : env.length = names.length) {x : String} (hx : x ∉ names) :
    valueOf names env x = 0 := by
  rw [valueOf, List.idxOf_eq_length hx, ← hlen, List.getElem?_eq_none (Nat.le_refl _)]
  rfl

theorem map_valueOf (hnodup : names.Nodup) (hlen : env.length = names.length) :
    names.map (valueOf names env) = env := by
  refine List.ext_getElem (by rw [List.length_map, hlen]) fun i hi hi' => ?_
  rw [List.length_map] at hi
  rw [List.getElem_map, valueOf, hnodup.idxOf_getElem i hi, List.getElem?_eq_getElem hi']
  rfl

/-- In a longer list of names, those that are new have the value zero. -/
theorem map_valueOf_append {more : List String} (hnodup : (names ++ more).Nodup)
    (hlen : env.length = names.length) :
    (names ++ more).map (valueOf names env) = env ++ List.replicate more.length 0 := by
  obtain ⟨hnames, -, hdisjoint⟩ := List.nodup_append.1 hnodup
  rw [List.map_append, map_valueOf hnames hlen, List.append_cancel_left_eq]
  refine List.map_eq_replicate_iff.2 fun x hx => valueOf_of_not_mem hlen fun hmem => ?_
  exact hdisjoint x hmem x hx rfl

end

namespace Program

/-- The slot that the name of a slot of `q` has in `r`. -/
def slotIn (q r : Program) (slot : Nat) : Nat :=
  r.names.idxOf (slotName q.names slot)

/-- The program `r` does what `p` does and then what `q` does: the statements of `q` refer to the
same names in it, and run in the environment that `p` leaves, where every other name is zero. -/
structure Joins (p q r : Program) : Prop where
  names : r.names = addNames p.names q.names
  statements : r.statements = p.statements ++ q.statements.map (Expr.rename (q.slotIn r))
  run : ∀ n, ∃ env, p.run n = some env ∧
    r.run n = runAll (q.statements.map (Expr.rename (q.slotIn r)))
      (r.names.map (valueOf p.names env))
  values : ∀ n, ∃ env left whole, p.run n = some env ∧
    runAll q.statements (q.names.map (valueOf p.names env)) = some left ∧
    r.run n = some whole ∧
    ∀ x ∈ r.names, valueOf r.names whole x =
      if x ∈ q.names then valueOf q.names left x else valueOf p.names env x

section
variable {p q r : Program}

theorem start_append {more : List String} (hreserved : reservedNames <+: p.names)
    (hnames : r.names = p.names ++ more) (n : Int64) :
    r.start n = p.start n ++ List.replicate more.length 0 := by
  have hle := hreserved.length_le
  have hpos : countSlot < p.names.length := Nat.lt_of_lt_of_le (by decide) hle
  rw [start, start, hnames, List.length_append, Nat.max_eq_left (by omega), Nat.max_eq_left hle,
    ← List.replicate_append_replicate, List.set_append_left _ _ (by rwa [List.length_replicate])]

theorem run_of_statements (hp : p.WellFormed) (hnodup : r.names.Nodup)
    (hnames : p.names <+: r.names) {es : List Expr} (hes : r.statements = p.statements ++ es)
    (n : Int64) :
    ∃ env, p.run n = some env ∧ env.length = p.names.length ∧
      r.run n = runAll es (r.names.map (valueOf p.names env)) := by
  obtain ⟨more, hmore⟩ := hnames
  have hlength : (p.start n).length = p.names.length := by
    rw [length_start]
    exact Nat.max_eq_left hp.reserved.length_le
  obtain ⟨env, hrun, hlen, hlong⟩ := runAll_append_env
    (fun e he slot hslot => hlength ▸ hp.slots e he slot hslot) (List.replicate more.length 0)
  rw [hlength] at hlen
  refine ⟨env, hrun, hlen, ?_⟩
  rw [run_eq_runAll, hes, runAll_append, start_append hp.reserved hmore.symm, hlong,
    Option.bind_some, ← hmore, map_valueOf_append (hmore ▸ hnodup) hlen]

theorem slotName_mem {names : List String} {slot : Nat} (h : slot < names.length) :
    slotName names slot ∈ names := by
  rw [slotName_eq_getElem h]
  exact List.getElem_mem h

theorem slotIn_idxOf {x : String} (h : x ∈ q.names) :
    q.slotIn r (q.names.idxOf x) = r.names.idxOf x := by
  rw [slotIn, slotName_idxOf h]

theorem getElem?_map_idxOf {names : List String} (value : String → Int64) {x : String}
    (h : x ∈ names) : (names.map value)[names.idxOf x]? = some (value x) := by
  rw [List.getElem?_map, List.getElem?_eq_getElem (List.idxOf_lt_length_of_mem h),
    List.getElem_idxOf, Option.map_some]

/-- The statements of `q` do the same in their own environment and in that of `r`, and in the
latter they leave every other name alone. -/
theorem runAll_slotIn (hq : q.WellFormed) (hsub : ∀ x ∈ q.names, x ∈ r.names)
    (value : String → Int64) :
    ∃ left whole, runAll q.statements (q.names.map value) = some left ∧
      runAll (q.statements.map (Expr.rename (q.slotIn r))) (r.names.map value) = some whole ∧
      ∀ x ∈ r.names, valueOf r.names whole x =
        if x ∈ q.names then valueOf q.names left x else value x := by
  have hinj : ∀ i j, i < q.names.length → j < q.names.length → q.slotIn r i = q.slotIn r j →
      i = j := by
    intro i j hi hj h
    have hname := (List.idxOf_inj (hsub _ (slotName_mem hi))).1 h
    rw [← idxOf_slotName hq.nodup hi, hname, idxOf_slotName hq.nodup hj]
  have hmatches : Matches (· < q.names.length) (q.slotIn r) (q.names.map value)
      (r.names.map value) := by
    intro i hi
    have hi' : q.names.idxOf (slotName q.names i) = i := idxOf_slotName hq.nodup hi
    refine ⟨value (slotName q.names i), ?_, getElem?_map_idxOf value (hsub _ (slotName_mem hi))⟩
    have hvalue := getElem?_map_idxOf value (slotName_mem hi)
    rwa [hi'] at hvalue
  obtain ⟨left, whole, hleft, hwhole, hsame⟩ := runAll_rename hinj hq.slots hmatches
  have hbound : ∀ e ∈ q.statements.map (Expr.rename (q.slotIn r)), ∀ slot ∈ e.slots,
      ∃ i, i < q.names.length ∧ slot = q.slotIn r i := by
    intro e he slot hslot
    obtain ⟨e', he', rfl⟩ := List.mem_map.1 he
    rw [Expr.slots_rename] at hslot
    obtain ⟨i, hi, rfl⟩ := List.mem_map.1 hslot
    exact ⟨i, hq.slots e' he' i hi, rfl⟩
  have hkeep := (writesOnly_of_runAll hwhole).kept
  refine ⟨left, whole, hleft, hwhole, fun x hx => ?_⟩
  split
  · next hmem =>
    obtain ⟨v, hv, hv'⟩ := hsame _ (List.idxOf_lt_length_of_mem hmem)
    rw [slotIn_idxOf hmem] at hv'
    rw [valueOf, valueOf, hv, hv']
  · next hmem =>
    have hkept : (q.statements.map (Expr.rename (q.slotIn r))).any
        (Expr.assigns (r.names.idxOf x)) = false := by
      refine Bool.eq_false_iff.2 fun hany => hmem ?_
      obtain ⟨e, he, hassigns⟩ := List.any_eq_true.1 hany
      obtain ⟨i, hi, heq⟩ := hbound e he _ (Expr.mem_slots_of_assigns hassigns)
      rw [(List.idxOf_inj hx).1 heq]
      exact slotName_mem hi
    rw [valueOf, hkeep _ hkept, getElem?_map_idxOf value hx]
    rfl

theorem Joins.of_statements (hp : p.WellFormed) (hq : q.WellFormed)
    (hnames : r.names = addNames p.names q.names)
    (hstatements : r.statements = p.statements ++ q.statements.map (Expr.rename (q.slotIn r))) :
    Joins p q r := by
  have hnodup : r.names.Nodup := hnames ▸ nodup_addNames hp.nodup _
  have hbegins : p.names <+: r.names := hnames ▸ prefix_addNames _ _
  have hsub : ∀ x ∈ q.names, x ∈ r.names := fun x hx => hnames ▸ mem_addNames.2 (.inr hx)
  refine ⟨hnames, hstatements, fun n => ?_, fun n => ?_⟩
  · obtain ⟨env, hrun, -, hwhole⟩ := run_of_statements hp hnodup hbegins hstatements n
    exact ⟨env, hrun, hwhole⟩
  · obtain ⟨env, hrun, -, hwhole⟩ := run_of_statements hp hnodup hbegins hstatements n
    obtain ⟨left, whole, hleft, hright, hvalues⟩ :=
      runAll_slotIn hq hsub (valueOf p.names env)
    exact ⟨env, left, whole, hrun, hleft, hwhole.trans hright, hvalues⟩

end

end Program

/-! ### Reading both -/

namespace Program

variable {a b : String} {p q : Program} {e : ParseError}

theorem not_faulty_of_parse (h : parse a = .ok p) : ¬ Faulty (scan a) := by
  rintro ⟨t, ht, hfault⟩
  have hprogram := parseTokens_isOk_iff.1 ⟨p, h⟩
  rw [hprogram.not_fault _ (List.mem_map_of_mem ht)] at hfault
  cases hfault

theorem exists_parse_join (hp : parse a = .ok p) (hq : parse b = .ok q) :
    ∃ r, parse (a ++ ";" ++ b) = .ok r ∧ Joins p q r := by
  obtain ⟨hpnames, hpd⟩ := parseTokens_reads hp
  obtain ⟨hqnames, hqd⟩ := parseTokens_reads hq
  have hpwf := parse_wellFormed hp
  have hqwf := parse_wellFormed hq
  have hlexemes := lexemes_scan_join (b := b) (not_faulty_of_parse hp)
  obtain ⟨names, hnames⟩ : ∃ names, names = slotNames (lexemes (scan (a ++ ";" ++ b))) := ⟨_, rfl⟩
  have hjoined : names = addNames p.names q.names := by
    rw [hnames, hlexemes, slotNames_eq, addNames_split rfl, ← slotNames_eq, ← hpnames, hqnames,
      slotNames_eq, addNames_addNames, addNames_of_subset hpwf.reserved.subset]
  obtain ⟨r, hr⟩ : ∃ r : Program, r = ⟨p.statements ++
    q.statements.map (Expr.rename fun slot => names.idxOf (slotName q.names slot)), names⟩ :=
    ⟨_, rfl⟩
  have hslotIn : q.slotIn r = fun slot => names.idxOf (slotName q.names slot) := hr ▸ rfl
  -- what `a` names keeps its slots
  have hleft : DerivesProgram maxNesting names.idxOf (lexemes (scan a))
      (p.statements.map (Expr.rename id)) := by
    refine hpd.rename fun x hx => ?_
    have hmem : x ∈ p.names := by
      rw [hpnames, slotNames_eq]
      exact mem_addNames.2 (.inr (mem_namesOf hx))
    have hbegins : p.names <+: names := hjoined ▸ prefix_addNames _ _
    exact (hbegins.idxOf_eq_of_mem hmem).symm
  have hright : DerivesProgram maxNesting names.idxOf (lexemes (scan b))
      (q.statements.map (Expr.rename fun slot => names.idxOf (slotName q.names slot))) := by
    refine hqd.rename fun x hx => ?_
    have hmem : x ∈ q.names := by
      rw [hqnames, slotNames_eq]
      exact mem_addNames.2 (.inr (mem_namesOf hx))
    rw [slotName_idxOf hmem]
  rw [map_rename_id] at hleft
  have hwhole := derivesProgram_iff.2
    ((derivesProgram_iff.1 hleft).append (derivesProgram_iff.1 hright))
  rw [← hlexemes, hnames] at hwhole
  refine ⟨r, ?_, .of_statements hpwf hqwf (hr ▸ hjoined) ?_⟩
  · have hok : parse (a ++ ";" ++ b) = _ := (parseTokens_yields hwhole).eq
    rw [hok, hr, hnames]
  · rw [hslotIn, hr]

/-- What is wrong with the first header is wrong with both. -/
theorem parse_join_of_error_left (he : parse a = .error e) (b : String) :
    ∃ e', parse (a ++ ";" ++ b) = .error e' ∧ e'.offset = e.offset := by
  obtain ⟨used, rest, o, hscan, hstuck, rfl⟩ := parseTokens_eq_error_iff.1 he
  suffices h : ∃ rest', scan (a ++ ";" ++ b) = used ++ rest' ∧
      StuckProgram maxNesting (lexemes rest').head? (lexemes used) o ∧
      ((Stop.endOfText (a ++ ";" ++ b).utf8ByteSize).ahead rest').offset =
        ((Stop.endOfText a.utf8ByteSize).ahead rest).offset by
    obtain ⟨rest', hscan', hstuck', hoffset⟩ := h
    refine ⟨_, parseTokens_eq_error_iff.2 ⟨used, rest', o, hscan', hstuck', rfl⟩, ?_⟩
    rw [o.offset_error, o.offset_error, hoffset]
  by_cases hfaulty : Faulty (scan a)
  · cases rest with
    | nil =>
      obtain ⟨t, ht, hfault⟩ := hfaulty
      rw [hscan, List.append_nil] at ht
      rw [hstuck.not_fault _ (List.mem_map_of_mem ht)] at hfault
      cases hfault
    | cons t ts => exact ⟨t :: ts, (scan_join_of_faulty hfaulty).trans hscan, hstuck, rfl⟩
  · rw [scan_join hfaulty, hscan, List.append_assoc]
    refine ⟨_, rfl, ?_⟩
    cases rest with
    | nil => exact ⟨hstuck.before_separator, rfl⟩
    | cons t ts => exact ⟨hstuck, rfl⟩

theorem parse_join_of_error_right (hp : parse a = .ok p) (he : parse b = .error e) :
    parse (a ++ ";" ++ b) = .error ⟨e.cause, a.utf8ByteSize + 1 + e.offset⟩ := by
  obtain ⟨used, rest, o, hscan, hstuck, rfl⟩ := parseTokens_eq_error_iff.1 he
  obtain ⟨es, hprogram⟩ := parseTokens_isOk_iff.1 ⟨p, hp⟩
  rw [← Obstacle.error_shift, ← Stop.ahead_shift]
  refine parseTokens_eq_error_iff.2 ⟨scan a ++ ⟨a.utf8ByteSize, ";", .mark .semicolon⟩ ::
    used.map (Token.shift (a.utf8ByteSize + 1)), rest.map (Token.shift (a.utf8ByteSize + 1)), o,
    ?_, ?_, ?_⟩
  · rw [scan_join (not_faulty_of_parse hp), hscan, List.map_append, List.append_assoc,
      List.cons_append]
  · rw [lexemes_shift, lexemes_append, lexemes_cons, lexemes_shift]
    exact StuckSeparated.behind hprogram hstuck
  · rw [utf8ByteSize_join]
    rfl

/-- Two headers with `;` between them are read exactly if each of them is.  Then they are one
program that runs the second behind the first; otherwise the whole is refused where the first one
is, or else where the second one is. -/
theorem parse_join (a b : String) :
    ((∃ r, parse (a ++ ";" ++ b) = .ok r) ↔ (∃ p, parse a = .ok p) ∧ ∃ q, parse b = .ok q) ∧
    match parse a, parse b with
    | .ok p, .ok q => ∃ r, parse (a ++ ";" ++ b) = .ok r ∧ Joins p q r
    | .error e, _ => ∃ e', parse (a ++ ";" ++ b) = .error e' ∧ e'.offset = e.offset
    | .ok _, .error e =>
        parse (a ++ ";" ++ b) = .error ⟨e.cause, a.utf8ByteSize + 1 + e.offset⟩ := by
  cases hp : parse a with
  | error e =>
    obtain ⟨e', hwhole, hoffset⟩ := parse_join_of_error_left hp b
    refine ⟨⟨?_, ?_⟩, e', hwhole, hoffset⟩
    · rintro ⟨r, hr⟩
      cases hwhole.symm.trans hr
    · rintro ⟨⟨p, h⟩, -⟩
      cases h
  | ok p =>
    cases hq : parse b with
    | error e =>
      have hwhole := parse_join_of_error_right hp hq
      refine ⟨⟨?_, ?_⟩, hwhole⟩
      · rintro ⟨r, hr⟩
        cases hwhole.symm.trans hr
      · rintro ⟨-, q, h⟩
        cases h
    | ok q =>
      obtain ⟨r, hr, hjoins⟩ := exists_parse_join hp hq
      exact ⟨⟨fun _ => ⟨⟨p, rfl⟩, q, rfl⟩, fun _ => ⟨r, hr⟩⟩, r, hr, hjoins⟩

end Program

end Phrasebook.Plural
