import Mathlib.Data.List.Forall2
import Phrasebook.Proofs.Plural.Evaluation
import Phrasebook.Proofs.Plural.Rejection
import Phrasebook.Proofs.Plural.WellFormed

/-!
# Headers that differ in their names only

The parser looks at what the lexemes of a header are, and at which names are the same
(`Lexeme.Alike`, `Derives.alike`, `Stuck.alike`).  So a header whose names are replaced by others, a
different one for each, is read as the same statements (`parse_eq_ok`), or refused at the same token
(`parse_eq_error`).  Blanks, the word that introduces a declaration and the number of `=` in a
comparison do not matter either.
-/

namespace Phrasebook.Plural

/-! ### Alike lexemes -/

/-- Lexemes that no reader tells apart, where `same` says which names stand for one another.  All
words that introduce declarations are alike, and so are all faults. -/
inductive Lexeme.Alike (same : String → String → Prop) : Lexeme → Lexeme → Prop
  | mark (m : Mark) : Alike same (.mark m) (.mark m)
  | name {x y : String} : same x y → Alike same (.name x) (.name y)
  | keyword (word word' : String) : Alike same (.keyword word) (.keyword word')
  | sign (s : Sign) : Alike same (.sign s) (.sign s)
  | number (v : Int64) : Alike same (.number v) (.number v)
  | fault (f f' : LexicalFault) : Alike same (.fault f) (.fault f')

/-- The lexemes are alike, one by one. -/
abbrev AlikeAll (same : String → String → Prop) : List Lexeme → List Lexeme → Prop :=
  List.Forall₂ (Lexeme.Alike same)

/-- What comes next is alike, or nothing does. -/
abbrev AlikeNext (same : String → String → Prop) : Option Lexeme → Option Lexeme → Prop :=
  Option.Rel (Lexeme.Alike same)

section
variable {α β : Type} {R : α → β → Prop} {xs ys : List α} {zs : List β} {x : α}

theorem exists_append_of_forall₂ (h : List.Forall₂ R (xs ++ ys) zs) :
    ∃ xs' ys', zs = xs' ++ ys' ∧ List.Forall₂ R xs xs' ∧ List.Forall₂ R ys ys' := by
  have hxs := List.forall₂_take xs.length h
  have hys := List.forall₂_drop xs.length h
  rw [List.take_left] at hxs
  rw [List.drop_left] at hys
  exact ⟨_, _, (List.take_append_drop xs.length zs).symm, hxs, hys⟩

theorem exists_append_cons_of_forall₂ (h : List.Forall₂ R (xs ++ x :: ys) zs) :
    ∃ xs' x' ys', zs = xs' ++ x' :: ys' ∧ List.Forall₂ R xs xs' ∧ R x x' ∧
      List.Forall₂ R ys ys' := by
  obtain ⟨xs', more, rfl, hxs, hmore⟩ := exists_append_of_forall₂ h
  obtain ⟨x', ys', hx, hys, rfl⟩ := List.forall₂_cons_left_iff.1 hmore
  exact ⟨xs', x', ys', rfl, hxs, hx, hys⟩

end

section
variable {same same' : String → String → Prop} {l l' : Lexeme} {ls ms : List Lexeme}

theorem Lexeme.Alike.mono (h : l.Alike same l')
    (hsame : ∀ x y, l = .name x → same x y → same' x y) : l.Alike same' l' := by
  cases h with
  | name hxy => exact .name (hsame _ _ rfl hxy)
  | mark m => exact .mark m
  | keyword word word' => exact .keyword word word'
  | sign s => exact .sign s
  | number v => exact .number v
  | fault f f' => exact .fault f f'

/-- Which names are the same matters for those that occur. -/
theorem AlikeAll.mono (h : AlikeAll same ls ms)
    (hsame : ∀ x y, .name x ∈ ls → same x y → same' x y) : AlikeAll same' ls ms := by
  induction h with
  | nil => exact .nil
  | cons hl _ ih =>
    refine .cons (hl.mono fun x y hx => ?_) (ih fun x y hx => ?_)
    · exact hsame x y (hx ▸ List.mem_cons_self)
    · exact hsame x y (List.mem_cons_of_mem _ hx)

end

/-! ### Alike phrases -/

section
variable {same : String → String → Prop} {limit depth : Nat} {slotOf slotOf' : String → Nat}
  {phrase : Phrase} {ls ms : List Lexeme} {e : Expr}

/-- Alike lexemes are the same phrase, if names that are the same have the same slot. -/
theorem Derives.alike (h : Derives limit slotOf phrase depth ls e)
    (hslots : ∀ x y, same x y → slotOf' y = slotOf x) (hls : AlikeAll same ls ms) :
    Derives limit slotOf' phrase depth ms e := by
  induction h generalizing ms with
  | value hlt _ ih => exact .value hlt (ih hls)
  | assign hlt _ _ ihl ihe =>
    obtain ⟨_, _, _, rfl, hl, ⟨⟩, he⟩ := exists_append_cons_of_forall₂ hls
    exact .assign hlt (ihl hl) (ihe he)
  | condition _ ih => exact .condition (ih hls)
  | ternary _ _ _ ihc iht ihf =>
    obtain ⟨_, _, _, rfl, hc, ⟨⟩, hrest⟩ := exists_append_cons_of_forall₂ hls
    obtain ⟨_, _, _, rfl, ht, ⟨⟩, hf⟩ := exists_append_cons_of_forall₂ hrest
    exact .ternary (ihc hc) (iht ht) (ihf hf)
  | chain _ ih => exact .chain (ih hls)
  | tightest hlevel _ ih => exact .tightest hlevel (ih hls)
  | first hlevel _ ih => exact .first hlevel (ih hls)
  | next _ hop hle _ ihl ihr =>
    obtain ⟨_, _, _, rfl, hl, ⟨⟩, hr⟩ := exists_append_cons_of_forall₂ hls
    exact .next (ihl hl) hop hle (ihr hr)
  | unary hop hlt _ ih =>
    obtain ⟨_, _, ⟨⟩, he, rfl⟩ := List.forall₂_cons_left_iff.1 hls
    exact .unary hop hlt (ih he)
  | primary _ ih => exact .primary (ih hls)
  | number v =>
    obtain ⟨_, _, ⟨⟩, ⟨⟩, rfl⟩ := List.forall₂_cons_left_iff.1 hls
    exact .number v
  | name x =>
    obtain ⟨_, _, hx, ⟨⟩, rfl⟩ := List.forall₂_cons_left_iff.1 hls
    cases hx with
    | @name _ y hxy =>
      rw [← hslots x y hxy]
      exact .name y
  | group _ ih =>
    obtain ⟨_, _, ⟨⟩, hrest, rfl⟩ := List.forall₂_cons_left_iff.1 hls
    obtain ⟨_, _, _, rfl, he, ⟨⟩, ⟨⟩⟩ := exists_append_cons_of_forall₂ hrest
    exact .group (ih he)

/-- Without slots, it does not matter which names are the same. -/
theorem Derives.alike_noSlot (h : Derives limit noSlot phrase depth ls e)
    (hls : AlikeAll same ls ms) : Derives limit noSlot phrase depth ms e :=
  h.alike (fun _ _ _ => rfl) hls

end

/-! ### Alike obstacles -/

section
variable {same : String → String → Prop} {limit depth : Nat} {phrase : Phrase}
  {ls ms : List Lexeme} {e : Expr} {l l' : Lexeme} {next next' : Option Lexeme} {m : Mark}
  {o : Obstacle}

theorem Lexeme.Alike.startsOperand_eq (h : l.Alike same l') :
    l'.startsOperand = l.startsOperand := by
  cases h <;> rfl

theorem Lexeme.Alike.extends_iff (h : l.Alike same l') :
    Extends .assignment e l' ↔ Extends .assignment e l := by
  cases h <;> simp [Extends]

theorem Lexeme.Alike.eq_mark_iff (h : l.Alike same l') : l' = .mark m ↔ l = .mark m := by
  cases h <;> simp

theorem Lexeme.Alike.eq_assign_iff (h : l.Alike same l') :
    l' = .sign .assign ↔ l = .sign .assign := by
  cases h <;> simp

theorem AlikeNext.exists_of_some (h : AlikeNext same next next') (hl : next' = some l') :
    ∃ l, next = some l ∧ l.Alike same l' := by
  subst hl
  cases h with
  | some hl => exact ⟨_, rfl, hl⟩

theorem Misses.alike (h : Misses m e next) (hnext : AlikeNext same next next') :
    Misses m e next' := by
  intro l' hl'
  obtain ⟨l, hl, halike⟩ := hnext.exists_of_some hl'
  rw [halike.extends_iff, Ne, halike.eq_mark_iff]
  exact h l hl

/-- Alike lexemes are stuck at the same obstacle. -/
theorem Stuck.alike (h : Stuck limit next phrase depth ls o) (hnext : AlikeNext same next next')
    (hls : AlikeAll same ls ms) : Stuck limit next' phrase depth ms o := by
  induction h generalizing ms with
  | tooDeep hle =>
    cases hls
    exact .tooDeep hle
  | value hlt _ ih => exact .value hlt (ih hls)
  | invalidTarget hlt hd hvar heq =>
    subst heq
    cases hnext with
    | some hl =>
      cases hl
      exact .invalidTarget hlt (hd.alike_noSlot hls) hvar rfl
  | assign hlt hd _ ih =>
    obtain ⟨_, _, _, rfl, hl, ⟨⟩, he⟩ := exists_append_cons_of_forall₂ hls
    exact .assign hlt (hd.alike_noSlot hl) (ih he)
  | condition _ ih => exact .condition (ih hls)
  | whenTrue hc _ ih =>
    obtain ⟨_, _, _, rfl, hl, ⟨⟩, ht⟩ := exists_append_cons_of_forall₂ hls
    exact .whenTrue (hc.alike_noSlot hl) (ih ht)
  | colon hc ht hmiss =>
    obtain ⟨_, _, _, rfl, hl, ⟨⟩, ht'⟩ := exists_append_cons_of_forall₂ hls
    exact .colon (hc.alike_noSlot hl) (ht.alike_noSlot ht') (hmiss.alike hnext)
  | whenFalse hc ht _ ih =>
    obtain ⟨_, _, _, rfl, hl, ⟨⟩, hrest⟩ := exists_append_cons_of_forall₂ hls
    obtain ⟨_, _, _, rfl, ht', ⟨⟩, hf⟩ := exists_append_cons_of_forall₂ hrest
    exact .whenFalse (hc.alike_noSlot hl) (ht.alike_noSlot ht') (ih hf)
  | first hlevel _ ih => exact .first hlevel (ih hls)
  | tightest hlevel _ ih => exact .tightest hlevel (ih hls)
  | operatorTooDeep hl hop hle =>
    obtain ⟨_, _, _, rfl, hl', ⟨⟩, ⟨⟩⟩ := exists_append_cons_of_forall₂ hls
    exact .operatorTooDeep (hl.alike_noSlot hl') hop hle
  | right hl hop hle _ ih =>
    obtain ⟨_, _, _, rfl, hl', ⟨⟩, hr⟩ := exists_append_cons_of_forall₂ hls
    exact .right (hl.alike_noSlot hl') hop hle (ih hr)
  | unaryTooDeep hop hle =>
    obtain ⟨_, _, ⟨⟩, ⟨⟩, rfl⟩ := List.forall₂_cons_left_iff.1 hls
    exact .unaryTooDeep hop hle
  | unary hop hlt _ ih =>
    obtain ⟨_, _, ⟨⟩, he, rfl⟩ := List.forall₂_cons_left_iff.1 hls
    exact .unary hop hlt (ih he)
  | primary _ ih => exact .primary (ih hls)
  | expression hstarts =>
    cases hls
    refine .expression fun l' hl' => ?_
    obtain ⟨l, hl, halike⟩ := hnext.exists_of_some hl'
    rw [halike.startsOperand_eq]
    exact hstarts l hl
  | inner _ ih =>
    obtain ⟨_, _, ⟨⟩, he, rfl⟩ := List.forall₂_cons_left_iff.1 hls
    exact .inner (ih he)
  | closeParen hd hmiss =>
    obtain ⟨_, _, ⟨⟩, he, rfl⟩ := List.forall₂_cons_left_iff.1 hls
    exact .closeParen (hd.alike_noSlot he) (hmiss.alike hnext)

end

/-! ### Alike statements -/

section
variable {same : String → String → Prop} {limit : Nat} {slotOf slotOf' : String → Nat}
  {ls ms : List Lexeme} {es : List Expr}

theorem DerivesDeclarator.alike (h : DerivesDeclarator limit slotOf ls es)
    (hslots : ∀ x y, same x y → slotOf' y = slotOf x) (hls : AlikeAll same ls ms) :
    DerivesDeclarator limit slotOf' ms es := by
  cases h with
  | bare x =>
    obtain ⟨_, _, hx, ⟨⟩, rfl⟩ := List.forall₂_cons_left_iff.1 hls
    cases hx
    exact .bare _
  | @initialised x _ e he =>
    obtain ⟨_, _, hx, hrest, rfl⟩ := List.forall₂_cons_left_iff.1 hls
    obtain ⟨_, _, ⟨⟩, hvalue, rfl⟩ := List.forall₂_cons_left_iff.1 hrest
    cases hx with
    | @name _ y hxy =>
      rw [← hslots x y hxy]
      exact .initialised (he.alike hslots hvalue)

theorem Separated.alike {separator : Mark} {Part Part' : List Lexeme → List Expr → Prop}
    (hpart : ∀ {ls ms es}, Part ls es → AlikeAll same ls ms → Part' ms es)
    (h : Separated separator Part ls es) (hls : AlikeAll same ls ms) :
    Separated separator Part' ms es := by
  induction h generalizing ms with
  | last hp => exact .last (hpart hp hls)
  | more hp _ ih =>
    obtain ⟨_, _, _, rfl, hfirst, ⟨⟩, hrest⟩ := exists_append_cons_of_forall₂ hls
    exact .more (hpart hp hfirst) (ih hrest)

theorem DerivesClause.alike (h : DerivesClause limit slotOf ls es)
    (hslots : ∀ x y, same x y → slotOf' y = slotOf x) (hls : AlikeAll same ls ms) :
    DerivesClause limit slotOf' ms es := by
  rcases h with ⟨rfl, rfl⟩ | hs
  · cases hls
    exact .inl ⟨rfl, rfl⟩
  · cases hs with
    | declaration hd =>
      obtain ⟨_, _, hword, hrest, rfl⟩ := List.forall₂_cons_left_iff.1 hls
      cases hword
      exact .inr (.declaration (hd.alike (fun hp => hp.alike hslots) hrest))
    | expression he => exact .inr (.expression (he.alike hslots hls))

theorem DerivesProgram.alike (h : DerivesProgram limit slotOf ls es)
    (hslots : ∀ x y, same x y → slotOf' y = slotOf x) (hls : AlikeAll same ls ms) :
    DerivesProgram limit slotOf' ms es :=
  derivesProgram_iff.2 ((derivesProgram_iff.1 h).alike (fun hc => hc.alike hslots) hls)

end

section
variable {same : String → String → Prop} {limit : Nat} {ls ms : List Lexeme}
  {next next' : Option Lexeme} {o : Obstacle}

theorem StuckWhole.alike (h : StuckWhole limit next ls o) (hnext : AlikeNext same next next')
    (hls : AlikeAll same ls ms) : StuckWhole limit next' ms o := by
  cases h with
  | inside hs => exact .inside (hs.alike hnext hls)
  | separator hd hl hext =>
    subst hl
    cases hnext with
    | some halike =>
      exact .separator (hd.alike_noSlot hls) rfl fun h => hext (halike.extends_iff.1 h)

theorem StuckDeclarator.alike (h : StuckDeclarator limit next ls o)
    (hnext : AlikeNext same next next') (hls : AlikeAll same ls ms) :
    StuckDeclarator limit next' ms o := by
  cases h with
  | name hname =>
    cases hls
    refine .name fun y hy => ?_
    obtain ⟨l, hl, halike⟩ := hnext.exists_of_some hy
    cases halike
    exact hname _ hl
  | separator hl hne =>
    subst hl
    obtain ⟨_, _, hx, ⟨⟩, rfl⟩ := List.forall₂_cons_left_iff.1 hls
    cases hx
    cases hnext with
    | some halike => exact .separator rfl fun h => hne (halike.eq_assign_iff.1 h)
  | value hw =>
    obtain ⟨_, _, hx, hrest, rfl⟩ := List.forall₂_cons_left_iff.1 hls
    obtain ⟨_, _, ⟨⟩, hvalue, rfl⟩ := List.forall₂_cons_left_iff.1 hrest
    cases hx
    exact .value (hw.alike hnext hvalue)

theorem AlikeNext.nextIn (h : AlikeNext same next next') (separator : Mark) :
    AlikeNext same (nextIn separator next) (nextIn separator next') := by
  cases h with
  | none => exact .none
  | @some l l' hl =>
    unfold Plural.nextIn
    by_cases hmark : l = .mark separator
    · rw [if_pos (congrArg some hmark), if_pos (congrArg some (hl.eq_mark_iff.2 hmark))]
      exact .none
    · rw [if_neg fun h => hmark (Option.some.inj h),
        if_neg fun h => hmark (hl.eq_mark_iff.1 (Option.some.inj h))]
      exact .some hl

theorem StuckSeparated.alike {separator : Mark} {Part : List Lexeme → List Expr → Prop}
    {StuckPart : Option Lexeme → List Lexeme → Obstacle → Prop}
    (hpart : ∀ {ls ms es}, Part ls es → AlikeAll same ls ms → Part ms es)
    (hstuck : ∀ {next next' ls ms o}, StuckPart next ls o → AlikeNext same next next' →
      AlikeAll same ls ms → StuckPart next' ms o)
    (h : StuckSeparated separator Part StuckPart next ls o) (hnext : AlikeNext same next next')
    (hls : AlikeAll same ls ms) : StuckSeparated separator Part StuckPart next' ms o := by
  induction h generalizing ms with
  | first hs => exact .first (hstuck hs (hnext.nextIn separator) hls)
  | later hp _ ih =>
    obtain ⟨_, _, _, rfl, hfirst, ⟨⟩, hrest⟩ := exists_append_cons_of_forall₂ hls
    exact .later (hpart hp hfirst) (ih hrest)

theorem StuckStatement.alike (h : StuckStatement limit next ls o)
    (hnext : AlikeNext same next next') (hls : AlikeAll same ls ms) :
    StuckStatement limit next' ms o := by
  cases h with
  | declaration hd =>
    obtain ⟨_, _, hword, hrest, rfl⟩ := List.forall₂_cons_left_iff.1 hls
    cases hword
    refine .declaration (hd.alike (fun hp => hp.alike fun _ _ _ => rfl) ?_ hnext hrest)
    exact fun hs => hs.alike
  | expression hfirst hw =>
    refine .expression (fun hnil => ?_) (hw.alike hnext hls)
    subst hnil
    cases hls
    obtain ⟨l, rfl, hword⟩ := hfirst rfl
    cases hnext with
    | @some _ l' halike =>
      refine ⟨l', rfl, ?_⟩
      rintro word rfl
      cases halike
      exact hword _ rfl

theorem StuckProgram.alike (h : StuckProgram limit next ls o) (hnext : AlikeNext same next next')
    (hls : AlikeAll same ls ms) : StuckProgram limit next' ms o :=
  StuckSeparated.alike (fun hc => hc.alike fun _ _ _ => rfl) (fun hs => hs.alike) h hnext hls

end

/-! ### Slots of renamed names -/

section
variable {f : String → String} {used : String → Prop} {names xs : List String} {x : String}

theorem mem_map_iff_of_injective (hinj : ∀ x, used x → ∀ y, used y → f x = f y → x = y)
    (hnames : ∀ y ∈ names, used y) (hx : used x) : f x ∈ names.map f ↔ x ∈ names := by
  constructor
  · intro h
    obtain ⟨y, hy, heq⟩ := List.mem_map.1 h
    rwa [← hinj y (hnames y hy) x hx heq]
  · exact List.mem_map_of_mem

theorem addName_map (hinj : ∀ x, used x → ∀ y, used y → f x = f y → x = y)
    (hnames : ∀ y ∈ names, used y) (hx : used x) :
    addName (names.map f) (f x) = (addName names x).map f := by
  unfold addName
  by_cases h : x ∈ names
  · rw [if_pos h, if_pos (List.mem_map_of_mem h)]
  · rw [if_neg h, if_neg fun h' => h ((mem_map_iff_of_injective hinj hnames hx).1 h'),
      List.map_append, List.map_singleton]

theorem addNames_map (hinj : ∀ x, used x → ∀ y, used y → f x = f y → x = y)
    (hnames : ∀ y ∈ names, used y) (hxs : ∀ y ∈ xs, used y) :
    addNames (names.map f) (xs.map f) = (addNames names xs).map f := by
  induction xs generalizing names with
  | nil => rfl
  | cons x xs ih =>
    obtain ⟨hx, hxs⟩ := List.forall_mem_cons.1 hxs
    have hadded : ∀ y ∈ addName names x, used y := by
      intro y hy
      have hadd : y ∈ addNames names [x] := hy
      rcases mem_addNames.1 hadd with hy | hy
      · exact hnames y hy
      · rwa [List.mem_singleton.1 hy]
    rw [List.map_cons, addNames_cons, addNames_cons, addName_map hinj hnames hx, ih hadded hxs]

theorem idxOf_map (hinj : ∀ x, used x → ∀ y, used y → f x = f y → x = y)
    (hnames : ∀ y ∈ names, used y) (hx : used x) :
    (names.map f).idxOf (f x) = names.idxOf x := by
  induction names with
  | nil => rfl
  | cons y names ih =>
    obtain ⟨hy, hnames⟩ := List.forall_mem_cons.1 hnames
    rw [List.map_cons, List.idxOf_cons, List.idxOf_cons, ih hnames]
    by_cases h : y = x
    · rw [h, beq_self_eq_true, beq_self_eq_true]
    · rw [beq_false_of_ne h, beq_false_of_ne fun heq => h (hinj y hy x hx heq)]

end

section
variable {f : String → String} {ls ms : List Lexeme}

theorem AlikeAll.namesOf (h : AlikeAll (fun x y => y = f x) ls ms) :
    namesOf ms = (namesOf ls).map f := by
  induction h with
  | nil => rfl
  | cons hl _ ih =>
    cases hl with
    | name hxy =>
      subst hxy
      rw [namesOf_cons_name, namesOf_cons_name, ih, List.map_cons]
    | mark | keyword | sign | number | fault =>
      rw [namesOf_cons_of_none rfl, namesOf_cons_of_none rfl, ih]

end

/-! ### Renamed headers -/

/-- The tokens of `b` are those of `a`, one by one, with other names. -/
def Renamed (f : String → String) (a b : String) : Prop :=
  List.Forall₂ (fun t u => t.lexeme.Alike (fun x y => y = f x) u.lexeme) (scan a) (scan b)

/-- The names that a header has slots for. -/
def namesIn (source : String) : List String :=
  slotNames (lexemes (scan source))

/-- What stands behind the first `k` tokens of a text: a token, or the end of the text. -/
def placeAt (source : String) (k : Nat) : Stop :=
  (Stop.endOfText source.utf8ByteSize).ahead ((scan source).drop k)

theorem mem_namesIn {source x : String} :
    x ∈ namesIn source ↔ x ∈ reservedNames ∨ x ∈ namesOf (lexemes (scan source)) := by
  rw [namesIn, slotNames_eq, mem_addNames]

theorem map_eq_self {f : String → String} {names : List String} (h : ∀ x ∈ names, f x = x) :
    names.map f = names :=
  (List.map_congr_left h).trans (List.map_id' names)

theorem AlikeNext.head? {same : String → String → Prop} {ls ms : List Lexeme}
    (h : AlikeAll same ls ms) : AlikeNext same ls.head? ms.head? := by
  cases h with
  | nil => exact .none
  | cons hl _ => exact .some hl

namespace Renamed

variable {f : String → String} {a b : String} {p : Program} {e : ParseError}

theorem alikeAll (h : Renamed f a b) :
    AlikeAll (fun x y => y = f x) (lexemes (scan a)) (lexemes (scan b)) :=
  List.forall₂_map_left_iff.2 (List.forall₂_map_right_iff.2 h)

theorem namesIn_eq (h : Renamed f a b) (hreserved : ∀ x ∈ reservedNames, f x = x)
    (hinj : ∀ x ∈ namesIn a, ∀ y ∈ namesIn a, f x = f y → x = y) :
    namesIn b = (namesIn a).map f := by
  rw [namesIn, namesIn, slotNames_eq, slotNames_eq, h.alikeAll.namesOf,
    ← addNames_map hinj (fun y hy => mem_namesIn.2 (.inl hy)) fun y hy => mem_namesIn.2 (.inr hy),
    map_eq_self hreserved]

/-- A header that is read is read as the same statements under other names. -/
theorem parse_eq_ok (h : Renamed f a b) (hreserved : ∀ x ∈ reservedNames, f x = x)
    (hinj : ∀ x ∈ namesIn a, ∀ y ∈ namesIn a, f x = f y → x = y)
    (hp : Program.parse a = .ok p) : Program.parse b = .ok ⟨p.statements, p.names.map f⟩ := by
  obtain ⟨hnames, hd⟩ := parseTokens_reads hp
  have hnames : p.names = namesIn a := hnames
  have hb : namesIn b = (namesIn a).map f := h.namesIn_eq hreserved hinj
  have halike : AlikeAll (fun x y => (namesIn b).idxOf y = p.names.idxOf x) (lexemes (scan a))
      (lexemes (scan b)) := by
    refine h.alikeAll.mono fun x y hx hy => ?_
    have hmem : x ∈ namesIn a := mem_namesIn.2 (.inr (Program.mem_namesOf hx))
    rw [hy, hb, hnames]
    exact idxOf_map hinj (fun _ hy => hy) hmem
  have hok : Program.parse b = .ok ⟨p.statements, namesIn b⟩ :=
    (parseTokens_yields (hd.alike (fun _ _ hslot => hslot) halike)).eq
  rw [hok, hb, hnames]

/-- A header that is refused is refused for the same obstacle at the same token. -/
theorem parse_eq_error (h : Renamed f a b) (he : Program.parse a = .error e) :
    ∃ k o, k ≤ (scan a).length ∧ e = Obstacle.error (placeAt a k) o ∧
      Program.parse b = .error (Obstacle.error (placeAt b k) o) := by
  obtain ⟨used, rest, o, hscan, hstuck, rfl⟩ := parseTokens_eq_error_iff.1 he
  rw [Renamed, hscan] at h
  obtain ⟨used', rest', hscan', hused, hrest⟩ := exists_append_of_forall₂ h
  have hused' : AlikeAll _ (lexemes used) (lexemes used') :=
    List.forall₂_map_left_iff.2 (List.forall₂_map_right_iff.2 hused)
  have hrest' : AlikeAll _ (lexemes rest) (lexemes rest') :=
    List.forall₂_map_left_iff.2 (List.forall₂_map_right_iff.2 hrest)
  refine ⟨used.length, o, ?_, ?_, parseTokens_eq_error_iff.2 ⟨used', rest', o, hscan', ?_, ?_⟩⟩
  · rw [hscan, List.length_append]
    exact Nat.le_add_right _ _
  · rw [placeAt, hscan, List.drop_left]
  · exact hstuck.alike (.head? hrest') hused'
  · rw [placeAt, hscan', hused.length_eq, List.drop_left]

end Renamed

/-! ### What a program does with its names -/

section
variable (p : Program) (f : String → String)

theorem run_map_names (n : Int64) : Program.run ⟨p.statements, p.names.map f⟩ n = p.run n := by
  rw [Program.run_eq_runAll, Program.run_eq_runAll, Program.start, Program.start, List.length_map]

theorem declaredCount_map_names :
    PluralRule.declaredCount ⟨p.statements, p.names.map f⟩ = PluralRule.declaredCount p := by
  rw [PluralRule.declaredCount, PluralRule.declaredCount, run_map_names]
  rfl

end

end Phrasebook.Plural

/-! ### Rules -/

namespace Phrasebook.PluralRule

open Plural

variable {f : String → String} {a b : String}

/-- Two headers whose tokens differ in nothing but names, which are replaced by different ones, are
both refused, for the same obstacle at the same token, or are both read as the same statements and
make rules that answer alike. -/
theorem compile_renamed (hreserved : ∀ x ∈ reservedNames, f x = x)
    (hinj : ∀ x ∈ namesIn a, ∀ y ∈ namesIn a, f x = f y → x = y) (h : Renamed f a b) :
    match compile a, compile b with
    | .ok r, .ok s =>
        s.program.statements = r.program.statements ∧
        s.program.names = r.program.names.map f ∧
        (∀ n, s.index n = r.index n) ∧ s.nplurals = r.nplurals
    | .error d, .error e =>
        ∃ k o, k ≤ (scan a).length ∧
          d.error = Obstacle.error (placeAt a k) o ∧ d.error.offset = (placeAt a k).offset ∧
          e.error = Obstacle.error (placeAt b k) o ∧ e.error.offset = (placeAt b k).offset
    | .ok _, .error _ | .error _, .ok _ => False := by
  cases hp : Program.parse a with
  | ok p =>
    rw [compile, compile, hp, h.parse_eq_ok hreserved hinj hp]
    refine ⟨rfl, rfl, fun n => ?_, declaredCount_map_names p f⟩
    rw [index, index, run_map_names]
  | error d =>
    obtain ⟨k, o, hk, rfl, hq⟩ := h.parse_eq_error hp
    rw [compile, compile, hp, hq]
    exact ⟨k, o, hk, rfl, o.offset_error _, rfl, o.offset_error _⟩

/-- The name `one` in place of `k`. -/
def kToOne (x : String) : String :=
  if x = "k" then "one" else x

def denseHeader : String :=
  "nplurals=2;var k=n===1;plural=k"

def denseProgram : Program where
  statements :=
    [.assign npluralsSlot (.lit 2), .assign 3 (.binary .equals (.var countSlot) (.lit 1)),
      .assign pluralSlot (.var 3)]
  names := ["n", "plural", "nplurals", "k"]

theorem lexemes_denseHeader : lexemes (scan denseHeader) =
    [.name "nplurals", .sign .assign, .number 2, .mark .semicolon, .keyword "var", .name "k",
      .sign .assign, .name "n", .sign (.operator .equals), .number 1, .mark .semicolon,
      .name "plural", .sign .assign, .name "k"] := by
  decide +kernel

theorem parse_denseHeader : Program.parse denseHeader = .ok denseProgram := by
  have hcount : Derives maxNesting denseProgram.names.idxOf .assignment 0 _
      (.assign npluralsSlot (.lit 2)) :=
    .assign_operand "nplurals" (by decide) (.primary (.number 2))
  have hcomparison : Derives maxNesting denseProgram.names.idxOf .conditional 1 _
      (.binary .equals (.var countSlot) (.lit 1)) :=
    .binary .equals (by decide) (.primary (.name "n")) (.primary (.number 1))
  have hvariant : Derives maxNesting denseProgram.names.idxOf .assignment 0 _
      (.assign pluralSlot (.var 3)) :=
    .assign_operand "plural" (by decide) (.primary (.name "k"))
  exact Program.parse_of_derives lexemes_denseHeader (by decide)
    (.statement (.expression hcount)
      (.statement (.declaration (.last (.initialised (.value (by decide) hcomparison))))
        (.last (.expression hvariant))))

/-- `denseHeader` with blanks, another word in front of the declaration and `one` for `k`. -/
def airyHeader : String :=
  "nplurals = 2; let one = n == 1; plural = one"

theorem compile_renamed_of_airyHeader :
    (∀ x ∈ reservedNames, kToOne x = x) ∧
    (∀ x ∈ namesIn denseHeader, ∀ y ∈ namesIn denseHeader, kToOne x = kToOne y → x = y) ∧
    Renamed kToOne denseHeader airyHeader ∧
    ∃ r s, compile denseHeader = .ok r ∧ compile airyHeader = .ok s ∧
      s.program.names = ["n", "plural", "nplurals", "one"] ∧
      s.program.statements = r.program.statements ∧ (∀ n, s.index n = r.index n) ∧
      s.nplurals = some 2 := by
  have hnames : namesIn denseHeader = ["n", "plural", "nplurals", "k"] := by decide +kernel
  have hreserved : ∀ x ∈ reservedNames, kToOne x = x := by decide
  have hinj : ∀ x ∈ namesIn denseHeader, ∀ y ∈ namesIn denseHeader,
      kToOne x = kToOne y → x = y := by
    rw [hnames]
    decide
  have hairy : lexemes (scan airyHeader) =
      [.name "nplurals", .sign .assign, .number 2, .mark .semicolon, .keyword "let", .name "one",
        .sign .assign, .name "n", .sign (.operator .equals), .number 1, .mark .semicolon,
        .name "plural", .sign .assign, .name "one"] := by decide +kernel
  have hrenamed : Renamed kToOne denseHeader airyHeader := by
    refine List.forall₂_map_left_iff.1 (List.forall₂_map_right_iff.1 ?_)
    rw [← lexemes, ← lexemes, lexemes_denseHeader, hairy]
    repeat' constructor
  have hcompile := compile_of_parse parse_denseHeader
  have hmatch := compile_renamed hreserved hinj hrenamed
  rw [hcompile] at hmatch
  refine ⟨hreserved, hinj, hrenamed, ?_⟩
  cases hs : compile airyHeader with
  | error e =>
    rw [hs] at hmatch
    exact hmatch.elim
  | ok s =>
    rw [hs] at hmatch
    obtain ⟨hstatements, hsnames, hindex, hcount⟩ := hmatch
    exact ⟨_, s, hcompile, rfl, hsnames, hstatements, hindex, hcount⟩

end Phrasebook.PluralRule
