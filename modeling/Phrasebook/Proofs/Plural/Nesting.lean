import Phrasebook.Proofs.Plural.Acceptance

/-!
# How deep an accepted tree is

The nesting limit counts the right operands of a chain of operators, but the chain gives its levels
back when it ends, and its first operand was read before any of them was taken.  So a path through
a tree (`Expr.paths`) spends a level at every turn except to the left (`spending`,
`Derives.spending_le`): there it may take as many turns as the chain has operators, on each of the
six levels of operators, and again in every group (`nesting`, `Derives.nesting_le`).  The bound that
comes of this is reached (`exists_deepest_program`, `forall_nesting_le_iff`).
-/

namespace Phrasebook.Plural

/-! ### Paths -/

/-- A step from a tree to one of its parts. -/
inductive Turn where
  | operand
  | left
  | right
  | condition
  | branch
  | value
deriving DecidableEq, Repr

namespace Turn

/-- Everything nests but the condition of a ternary. -/
def nests (t : Turn) : Bool :=
  t ≠ condition

/-- A turn that nests, other than to the left. -/
def spends (t : Turn) : Bool :=
  t.nests && t ≠ left

end Turn

/-- The paths from the root of a tree to its leaves. -/
def Expr.paths : Expr → List (List Turn)
  | .lit _ | .var _ => [[]]
  | .unary _ e => e.paths.map (.operand :: ·)
  | .binary _ l r => l.paths.map (.left :: ·) ++ r.paths.map (.right :: ·)
  | .cond c t f =>
      c.paths.map (.condition :: ·) ++ (t.paths.map (.branch :: ·) ++ f.paths.map (.branch :: ·))
  | .assign _ e => e.paths.map (.value :: ·)

/-- How many prefix operators, binary operators, assignments and branches the path enters. -/
def nesting (path : List Turn) : Nat :=
  path.countP Turn.nests

/-- How many levels of nesting the path spends. -/
def spending (path : List Turn) : Nat :=
  path.countP Turn.spends

section
variable {t : Turn}

theorem nesting_cons (h : t.nests = true) (path : List Turn) :
    nesting (t :: path) = nesting path + 1 :=
  List.countP_cons_of_pos h

theorem nesting_condition (path : List Turn) : nesting (.condition :: path) = nesting path :=
  List.countP_cons_of_neg (by decide)

theorem spending_cons (h : t.spends = true) (path : List Turn) :
    spending (t :: path) = spending path + 1 :=
  List.countP_cons_of_pos h

theorem spending_left (path : List Turn) : spending (.left :: path) = spending path :=
  List.countP_cons_of_neg (by decide)

theorem spending_condition (path : List Turn) : spending (.condition :: path) = spending path :=
  List.countP_cons_of_neg (by decide)

end

/-- The turns of a path are those that nest, and the conditions it passes. -/
theorem length_eq_nesting_add (path : List Turn) :
    path.length = nesting path + path.count .condition := by
  induction path with
  | nil => rfl
  | cons t path ih =>
    by_cases ht : t = .condition
    · subst ht
      rw [List.length_cons, nesting_condition, List.count_cons_self, ih, Nat.add_assoc]
    · have hnests : t.nests = true := decide_eq_true ht
      rw [List.length_cons, nesting_cons hnests, List.count_cons_of_ne ht, ih]
      omega

/-- The turns that nest are those that spend a level, and those to the left. -/
theorem nesting_eq_spending_add (path : List Turn) :
    nesting path = spending path + path.count .left := by
  induction path with
  | nil => rfl
  | cons t path ih =>
    by_cases hcondition : t = .condition
    · subst hcondition
      rw [nesting_condition, spending_condition, ih, List.count_cons_of_ne (by decide)]
    have hnests : t.nests = true := decide_eq_true hcondition
    by_cases hleft : t = .left
    · subst hleft
      rw [nesting_cons rfl, spending_left, ih, List.count_cons_self, Nat.add_assoc]
    · have hspends : t.spends = true := by
        rw [Turn.spends, hnests, Bool.true_and]
        exact decide_eq_true hleft
      rw [nesting_cons hnests, spending_cons hspends, ih, List.count_cons_of_ne hleft]
      omega

section
variable {P : List Turn → Prop} {c e f l r : Expr}

theorem forall_mem_map_cons {t : Turn} {paths : List (List Turn)}
    (h : ∀ path ∈ paths, P (t :: path)) : ∀ path ∈ paths.map (t :: ·), P path := by
  intro path hpath
  obtain ⟨rest, hrest, rfl⟩ := List.mem_map.1 hpath
  exact h rest hrest

theorem forall_paths_binary {op : BinaryOperator} (hl : ∀ path ∈ l.paths, P (.left :: path))
    (hr : ∀ path ∈ r.paths, P (.right :: path)) : ∀ path ∈ (Expr.binary op l r).paths, P path :=
  List.forall_mem_append.2 ⟨forall_mem_map_cons hl, forall_mem_map_cons hr⟩

theorem forall_paths_cond (hc : ∀ path ∈ c.paths, P (.condition :: path))
    (hl : ∀ path ∈ l.paths, P (.branch :: path)) (hr : ∀ path ∈ r.paths, P (.branch :: path)) :
    ∀ path ∈ (Expr.cond c l r).paths, P path :=
  List.forall_mem_append.2 ⟨forall_mem_map_cons hc,
    List.forall_mem_append.2 ⟨forall_mem_map_cons hl, forall_mem_map_cons hr⟩⟩

end

/-! ### Levels that a path spends -/

/-- The count at which the operands of a phrase stand: an assignment takes a level by itself. -/
def Phrase.entered : Phrase → Nat → Nat
  | assignment, depth => depth + 1
  | _, depth => depth

section
variable {limit depth : Nat} {slotOf : String → Nat} {phrase : Phrase} {ls : List Lexeme}
  {e : Expr}

/-- A path never spends more levels than the limit leaves. -/
theorem Derives.spending_le (h : Derives limit slotOf phrase depth ls e) (hd : depth ≤ limit) :
    ∀ path ∈ e.paths, phrase.entered depth + spending path ≤ limit := by
  induction h with
  | value hlt _ ih => exact ih hlt
  | @assign depth slot ls ms e hlt _ _ _ ihe =>
    apply forall_mem_map_cons
    intro path hpath
    have hvalue : depth + 1 + 1 + spending path ≤ limit := ihe hlt path hpath
    show depth + 1 + spending (.value :: path) ≤ limit
    rw [spending_cons rfl]
    omega
  | condition _ ih | chain _ ih | tightest _ _ ih | first _ _ ih | primary _ ih => exact ih hd
  | @ternary depth ls ms ns c t f _ _ _ ihc iht ihf =>
    apply forall_paths_cond
    · intro path hpath
      have hc : depth + spending path ≤ limit := ihc hd path hpath
      show depth + spending (.condition :: path) ≤ limit
      rwa [spending_condition]
    · intro path hpath
      have ht : depth + 1 + spending path ≤ limit := iht hd path hpath
      show depth + spending (.branch :: path) ≤ limit
      rw [spending_cons rfl]
      omega
    · intro path hpath
      have hf : depth + 1 + spending path ≤ limit := ihf hd path hpath
      show depth + spending (.branch :: path) ≤ limit
      rw [spending_cons rfl]
      omega
  | @next depth level count ls ms op l r _ _ hle _ ihl ihr =>
    apply forall_paths_binary
    · intro path hpath
      have hl : depth + spending path ≤ limit := ihl hd path hpath
      show depth + spending (.left :: path) ≤ limit
      rwa [spending_left]
    · intro path hpath
      have hr : depth + (count + 1) + spending path ≤ limit := ihr hle path hpath
      show depth + spending (.right :: path) ≤ limit
      rw [spending_cons rfl]
      omega
  | @unary depth sign ls op e _ hlt _ ih =>
    apply forall_mem_map_cons
    intro path hpath
    have he : depth + 1 + spending path ≤ limit := ih hlt path hpath
    show depth + spending (.operand :: path) ≤ limit
    rw [spending_cons rfl]
    omega
  | number v | name x =>
    intro path hpath
    obtain rfl := List.mem_singleton.1 hpath
    exact hd
  | @group depth ls e _ ih =>
    intro path hpath
    have he : depth + 1 + spending path ≤ limit := ih hd path hpath
    show depth + spending path ≤ limit
    omega

end

/-! ### Turns that nest -/

/-- The most turns that nest below an operand when `budget` levels are left: the operand may be a
group, and its chain has `budget - 1` operators on each of six levels. -/
def deepest : Nat → Nat
  | 0 => 0
  | 1 => 1
  | budget + 2 => deepest (budget + 1) + 6 * (budget + 1)

theorem deepest_succ (budget : Nat) : deepest (budget + 1) = 3 * budget * (budget + 1) + 1 := by
  induction budget with
  | zero => rfl
  | succ budget ih =>
    rw [deepest, ih]
    simp only [Nat.mul_add, Nat.add_mul]
    omega

theorem add_deepest_le (budget : Nat) : 6 * budget + deepest budget ≤ deepest (budget + 1) := by
  cases budget with
  | zero => decide
  | succ budget =>
    rw [deepest]
    omega

theorem deepest_lt (budget : Nat) : deepest budget < deepest (budget + 1) := by
  cases budget with
  | zero => decide
  | succ budget =>
    have := add_deepest_le (budget + 1)
    omega

theorem deepest_mono {budget budget' : Nat} (h : budget ≤ budget') :
    deepest budget ≤ deepest budget' := by
  induction h with
  | refl => exact Nat.le_refl _
  | step _ ih => exact Nat.le_trans ih (Nat.le_of_lt (deepest_lt _))

section
variable {limit depth : Nat}

theorem add_deepest_sub_le (h : depth < limit) :
    6 * (limit - (depth + 1)) + deepest (limit - (depth + 1)) ≤ deepest (limit - depth) := by
  have hstep := add_deepest_le (limit - (depth + 1))
  rwa [show limit - (depth + 1) + 1 = limit - depth by omega] at hstep

theorem deepest_sub_lt (h : depth < limit) :
    deepest (limit - (depth + 1)) < deepest (limit - depth) := by
  have hstep := deepest_lt (limit - (depth + 1))
  rwa [show limit - (depth + 1) + 1 = limit - depth by omega] at hstep

end

/-- The most turns that nest in a phrase when `budget` levels are left. -/
def Phrase.deepest : Phrase → Nat → Nat
  | conditional, budget => 6 * budget + Plural.deepest budget
  | chain level, budget => (6 - level) * budget + Plural.deepest budget
  | run level count, budget => count + (5 - level) * budget + Plural.deepest budget
  | assignment, budget | operand, budget | primary, budget => Plural.deepest budget

section
variable {limit depth : Nat} {slotOf : String → Nat} {phrase : Phrase} {ls : List Lexeme}
  {e : Expr}

/-- A chain has no more operators than levels are left. -/
theorem Derives.count_le {level count : Nat}
    (h : Derives limit slotOf (.run level count) depth ls e) : count ≤ limit - depth := by
  cases h with
  | first => exact Nat.zero_le _
  | next _ _ hle _ => omega

theorem Derives.level_lt {level count : Nat}
    (h : Derives limit slotOf (.run level count) depth ls e) : level < 6 := by
  cases h with
  | first hlevel _ => exact hlevel
  | next _ hop _ _ => exact mem_operatorsAt.1 hop ▸ BinaryOperator.level_lt _

/-- No path has more turns that nest than the levels that are left allow. -/
theorem Derives.nesting_le (h : Derives limit slotOf phrase depth ls e) :
    ∀ path ∈ e.paths, nesting path ≤ phrase.deepest (limit - depth) := by
  induction h with
  | @value depth ls e hlt _ ih =>
    intro path hpath
    have hle : nesting path ≤ 6 * (limit - (depth + 1)) + deepest (limit - (depth + 1)) :=
      ih path hpath
    exact Nat.le_trans hle (add_deepest_sub_le hlt)
  | @assign depth slot ls ms e hlt _ hv _ ihe =>
    apply forall_mem_map_cons
    intro path hpath
    have hle : nesting path ≤ deepest (limit - (depth + 1)) := ihe path hpath
    have hstep := deepest_sub_lt hlt
    show nesting (.value :: path) ≤ deepest (limit - depth)
    rw [nesting_cons rfl]
    omega
  | condition _ ih | primary _ ih => exact ih
  | @ternary depth ls ms ns c t f _ ht hf ihc iht ihf =>
    have branch {path : List Turn} (hlt : depth < limit)
        (h : nesting path ≤ deepest (limit - depth)) :
        nesting (.branch :: path) ≤ 6 * (limit - depth) + deepest (limit - depth) := by
      rw [nesting_cons rfl]
      omega
    apply forall_paths_cond
    · intro path hpath
      rw [nesting_condition]
      exact ihc path hpath
    · intro path hpath
      exact branch ht.lt_limit (iht path hpath)
    · intro path hpath
      exact branch hf.lt_limit (ihf path hpath)
  | @chain depth level count ls e hrun ih =>
    intro path hpath
    have hlevel := hrun.level_lt
    have hle : nesting path ≤ count + (5 - level) * (limit - depth) + deepest (limit - depth) :=
      ih path hpath
    have hcount := hrun.count_le
    show nesting path ≤ (6 - level) * (limit - depth) + deepest (limit - depth)
    rw [show 6 - level = 5 - level + 1 by omega, Nat.succ_mul]
    omega
  | @tightest depth level ls e hlevel _ ih =>
    intro path hpath
    show nesting path ≤ (6 - level) * (limit - depth) + deepest (limit - depth)
    exact Nat.le_trans (ih path hpath) (Nat.le_add_left _ _)
  | @first depth level ls e hlevel _ ih =>
    intro path hpath
    have hle : nesting path ≤ (6 - (level + 1)) * (limit - depth) + deepest (limit - depth) :=
      ih path hpath
    show nesting path ≤ 0 + (5 - level) * (limit - depth) + deepest (limit - depth)
    rwa [Nat.zero_add, show 5 - level = 6 - (level + 1) by omega]
  | @next depth level count ls ms op l r _ hop hle _ ihl ihr =>
    apply forall_paths_binary
    · intro path hpath
      have hl : nesting path ≤ count + (5 - level) * (limit - depth) + deepest (limit - depth) :=
        ihl path hpath
      show nesting (.left :: path) ≤
        count + 1 + (5 - level) * (limit - depth) + deepest (limit - depth)
      rw [nesting_cons rfl]
      omega
    · intro path hpath
      have hr : nesting path ≤ (6 - (level + 1)) * (limit - (depth + (count + 1))) +
          deepest (limit - (depth + (count + 1))) := ihr path hpath
      have hfewer : limit - (depth + (count + 1)) ≤ limit - depth := by omega
      have hmul := Nat.mul_le_mul_left (6 - (level + 1)) hfewer
      have hdeep := deepest_mono hfewer
      show nesting (.right :: path) ≤
        count + 1 + (5 - level) * (limit - depth) + deepest (limit - depth)
      rw [nesting_cons rfl, show 5 - level = 6 - (level + 1) by omega]
      omega
  | @unary depth sign ls op e _ hlt _ ih =>
    apply forall_mem_map_cons
    intro path hpath
    have hle : nesting path ≤ deepest (limit - (depth + 1)) := ih path hpath
    have hstep := deepest_sub_lt hlt
    show nesting (.operand :: path) ≤ deepest (limit - depth)
    rw [nesting_cons rfl]
    omega
  | number v | name x =>
    intro path hpath
    obtain rfl := List.mem_singleton.1 hpath
    exact Nat.zero_le _
  | group _ ih => exact ih

end

/-! ### Paths of accepted programs -/

/-- The bounds for a statement: a declarator adds an assignment to the tree of its value. -/
def Bounded (limit : Nat) (e : Expr) : Prop :=
  ∀ path ∈ e.paths, spending path ≤ limit ∧ nesting path ≤ deepest limit + 1

section
variable {limit : Nat} {slotOf : String → Nat} {ls : List Lexeme} {e : Expr} {es : List Expr}

theorem Derives.bounded (h : Derives limit slotOf .assignment 0 ls e) : Bounded limit e := by
  intro path hpath
  have hspending : 0 + 1 + spending path ≤ limit := h.spending_le (Nat.zero_le limit) path hpath
  have hnesting : nesting path ≤ deepest limit := h.nesting_le path hpath
  exact ⟨by omega, by omega⟩

theorem Derives.bounded_assign (h : Derives limit slotOf .assignment 0 ls e) (slot : Nat) :
    Bounded limit (.assign slot e) := by
  apply forall_mem_map_cons
  intro path hpath
  have hspending : 0 + 1 + spending path ≤ limit := h.spending_le (Nat.zero_le limit) path hpath
  have hnesting : nesting path ≤ deepest limit := h.nesting_le path hpath
  rw [spending_cons rfl, nesting_cons rfl]
  exact ⟨by omega, by omega⟩

theorem Separated.forall_mem_trees {separator : Mark} {Part : List Lexeme → List Expr → Prop}
    {P : Expr → Prop} (hpart : ∀ ls es, Part ls es → ∀ e ∈ es, P e)
    (h : Separated separator Part ls es) : ∀ e ∈ es, P e := by
  induction h with
  | last h => exact hpart _ _ h
  | more h _ ih => exact List.forall_mem_append.2 ⟨hpart _ _ h, ih⟩

theorem DerivesStatement.bounded (h : DerivesStatement limit slotOf ls es) :
    ∀ e ∈ es, Bounded limit e := by
  cases h with
  | declaration hd =>
    refine hd.forall_mem_trees ?_
    intro ls es h
    cases h with
    | bare x => exact fun _ h => absurd h List.not_mem_nil
    | initialised hv => exact List.forall_mem_singleton.2 (hv.bounded_assign _)
  | expression he => exact List.forall_mem_singleton.2 he.bounded

theorem DerivesProgram.bounded (h : DerivesProgram limit slotOf ls es) :
    ∀ e ∈ es, Bounded limit e := by
  refine (derivesProgram_iff.1 h).forall_mem_trees ?_
  intro ls es hc
  rcases hc with ⟨rfl, rfl⟩ | hs
  · exact fun _ h => absurd h List.not_mem_nil
  · exact hs.bounded

end

/-! ### A program that reaches the bound -/

/-- Some tree of the phrase, without names, has a path with so many turns that nest. -/
def Reaches (limit : Nat) (phrase : Phrase) (depth turns : Nat) : Prop :=
  ∃ ls e path, (∀ l ∈ ls, l.Spelled) ∧ (∀ slotOf, Derives limit slotOf phrase depth ls e) ∧
    path ∈ e.paths ∧ nesting path = turns

section
variable {limit depth turns level : Nat}

theorem Reaches.map {phrase phrase' : Phrase} {depth' : Nat}
    (h : Reaches limit phrase depth turns)
    (f : ∀ {slotOf ls e}, Derives limit slotOf phrase depth ls e →
      Derives limit slotOf phrase' depth' ls e) : Reaches limit phrase' depth' turns := by
  obtain ⟨ls, e, path, hls, hd, hpath, hturns⟩ := h
  exact ⟨ls, e, path, hls, fun slotOf => f (hd slotOf), hpath, hturns⟩

theorem spelled_zero : (Lexeme.number 0).Spelled :=
  show 0 ≤ (0 : Int64).toInt by decide

theorem Reaches.number : Reaches limit .operand depth 0 :=
  ⟨[.number 0], .lit 0, [], List.forall_mem_singleton.2 spelled_zero,
    fun _ => .primary (.number 0), List.mem_singleton_self _, rfl⟩

theorem Reaches.unary (hlt : depth < limit) (h : Reaches limit .operand (depth + 1) turns) :
    Reaches limit .operand depth (turns + 1) := by
  obtain ⟨ls, e, path, hls, hd, hpath, rfl⟩ := h
  exact ⟨.sign .not :: ls, .unary .not e, .operand :: path,
    List.forall_mem_cons.2 ⟨trivial, hls⟩, fun slotOf => .unary rfl hlt (hd slotOf),
    List.mem_map_of_mem hpath, nesting_cons rfl path⟩

theorem Reaches.group (h : Reaches limit .assignment depth turns) :
    Reaches limit .operand depth turns := by
  obtain ⟨ls, e, path, hls, hd, hpath, rfl⟩ := h
  refine ⟨.mark .openParen :: (ls ++ [.mark .closeParen]), e, path, ?_,
    fun slotOf => .primary (.group (hd slotOf)), hpath, rfl⟩
  rw [List.forall_mem_cons, List.forall_mem_append, List.forall_mem_singleton]
  exact ⟨trivial, hls, trivial⟩

theorem exists_operator (hlevel : level < 6) : ∃ op, op ∈ operatorsAt level := by
  match level with
  | 0 => exact ⟨.or, List.mem_cons_self⟩
  | 1 => exact ⟨.and, List.mem_cons_self⟩
  | 2 => exact ⟨.equals, List.mem_cons_self⟩
  | 3 => exact ⟨.lower, List.mem_cons_self⟩
  | 4 => exact ⟨.add, List.mem_cons_self⟩
  | 5 => exact ⟨.multiply, List.mem_cons_self⟩

/-- Each operator of a chain nests its first operand once more. -/
theorem Reaches.run (hlevel : level < 6) (h : Reaches limit (.chain (level + 1)) depth turns)
    {count : Nat} (hcount : depth + count ≤ limit) :
    Reaches limit (.run level count) depth (turns + count) := by
  obtain ⟨op, hop⟩ := exists_operator hlevel
  induction count with
  | zero => exact h.map (.first hlevel)
  | succ count ih =>
    obtain ⟨ls, e, path, hls, hd, hpath, hturns⟩ := ih (by omega)
    refine ⟨ls ++ .sign (.operator op) :: [.number 0], .binary op e (.lit 0), .left :: path,
      ?_, ?_, ?_, ?_⟩
    · rw [List.forall_mem_append, List.forall_mem_cons, List.forall_mem_singleton]
      exact ⟨hls, trivial, spelled_zero⟩
    · intro slotOf
      have hzero : Derives limit slotOf .operand (depth + (count + 1)) [.number 0] (.lit 0) :=
        .primary (.number 0)
      exact .next (hd slotOf) hop hcount (hzero.chain_of_operand hlevel)
    · exact List.mem_append_left _ (List.mem_map_of_mem hpath)
    · rw [nesting_cons rfl, hturns]
      rfl

theorem Reaches.chain (hd : depth ≤ limit) (h : Reaches limit .operand depth turns) :
    Reaches limit (.chain 0) depth (turns + 6 * (limit - depth)) := by
  have step (k : Nat) (hk : k ≤ 6) :
      Reaches limit (.chain (6 - k)) depth (turns + k * (limit - depth)) := by
    induction k with
    | zero =>
      rw [Nat.zero_mul]
      exact h.map (.tightest (Nat.le_refl 6))
    | succ k ih =>
      have hlevel : 6 - (k + 1) < 6 := by omega
      have hinner := ih (by omega)
      rw [show 6 - k = 6 - (k + 1) + 1 by omega] at hinner
      have hrun := hinner.run hlevel (show depth + (limit - depth) ≤ limit by omega)
      rw [Nat.succ_mul, ← Nat.add_assoc]
      exact hrun.map .chain
  exact step 6 (Nat.le_refl 6)

theorem Reaches.assignment (hlt : depth < limit) (h : Reaches limit .operand (depth + 1) turns) :
    Reaches limit .assignment depth (turns + 6 * (limit - (depth + 1))) :=
  (h.chain hlt).map fun hd => .value hlt (.condition hd)

/-- The bound for operands is reached at every nesting count. -/
theorem reaches_deepest (budget : Nat) {depth : Nat} (h : depth + budget = limit) :
    Reaches limit .operand depth (deepest budget) := by
  induction budget generalizing depth with
  | zero => exact .number
  | succ budget ih =>
    have hinner := ih (show depth + 1 + budget = limit by omega)
    have hlt : depth < limit := by omega
    cases budget with
    | zero => exact hinner.unary hlt
    | succ budget =>
      have houter := (hinner.assignment hlt).group
      rwa [show limit - (depth + 1) = budget + 1 by omega] at houter

theorem reaches_assignment (budget : Nat) :
    Reaches (budget + 2) .assignment 0 (deepest (budget + 2)) := by
  have hoperand := reaches_deepest (budget + 1) (Nat.add_comm (0 + 1) (budget + 1))
  exact hoperand.assignment (Nat.succ_pos _)

end

/-- Some accepted text gives a tree with the deepest path there can be. -/
theorem exists_deepest_program : ∃ source p e path, Program.parse source = .ok p ∧
    e ∈ p.statements ∧ path ∈ e.paths ∧ nesting path = deepest maxNesting + 1 := by
  have hvalue : Reaches maxNesting .assignment 0 (deepest maxNesting) := reaches_assignment 126
  obtain ⟨ls, e, path, hls, hd, hpath, hturns⟩ := hvalue
  let ms : List Lexeme := .keyword "let" :: .name "plural" :: .sign .assign :: ls
  have hspelled : ∀ l ∈ ms, l.Spelled := by
    rw [List.forall_mem_cons, List.forall_mem_cons, List.forall_mem_cons]
    have hword : (Lexeme.keyword "let").Spelled := List.mem_cons_self
    have hname : (Lexeme.name "plural").Spelled := isName_of_mem_reservedNames (by decide)
    exact ⟨hword, hname, trivial, hls⟩
  have hprogram : DerivesProgram maxNesting (slotNames ms).idxOf ms
      [.assign ((slotNames ms).idxOf "plural") e] :=
    .last (.declaration (.last (.initialised (hd _))))
  refine ⟨spelledOut ms, _, _, .value :: path, Program.parse_spelledOut hspelled hprogram,
    List.mem_singleton_self _, List.mem_map_of_mem hpath, ?_⟩
  rw [nesting_cons rfl, hturns]

/-- The least bound for the depth of all accepted programs is quadratic in the limit. -/
theorem forall_nesting_le_iff (bound : Nat) :
    (∀ source p, Program.parse source = .ok p → ∀ e ∈ p.statements, ∀ path ∈ e.paths,
      nesting path ≤ bound) ↔ deepest maxNesting + 1 ≤ bound := by
  constructor
  · intro h
    obtain ⟨source, p, e, path, hp, he, hpath, hturns⟩ := exists_deepest_program
    rw [← hturns]
    exact h source p hp e he path hpath
  · intro hle source p hp e he path hpath
    have hbounded := (parseTokens_reads hp).2.bounded e he path hpath
    exact Nat.le_trans hbounded.2 hle

/-! ### When the limit bounds the depth -/

/-- A path of an accepted program spends no more than the limit, and its turns to the left come on
top.  So the limit bounds how deep the program is when no path turns left more often than the
levels that it does not spend. -/
theorem nesting_le_maxNesting_iff {source : String} {p : Program}
    (h : Program.parse source = .ok p) :
    (∀ e ∈ p.statements, ∀ path ∈ e.paths, spending path ≤ maxNesting ∧
      nesting path = spending path + path.count .left ∧
      nesting path ≤ 3 * maxNesting * (maxNesting - 1) + 2 ∧
      path.length = nesting path + path.count .condition) ∧
    ((∀ e ∈ p.statements, ∀ path ∈ e.paths, nesting path ≤ maxNesting) ↔
      ∀ e ∈ p.statements, ∀ path ∈ e.paths, path.count .left ≤ maxNesting - spending path) := by
  have hdeepest : deepest maxNesting + 1 = 3 * maxNesting * (maxNesting - 1) + 2 := by
    rw [show maxNesting = 127 + 1 from rfl, deepest_succ]
  have hbounded : ∀ e ∈ p.statements, Bounded maxNesting e := (parseTokens_reads h).2.bounded
  rw [← hdeepest]
  refine ⟨?_, ?_, ?_⟩
  · intro e he path hpath
    obtain ⟨hspending, hnesting⟩ := hbounded e he path hpath
    exact ⟨hspending, nesting_eq_spending_add path, hnesting, length_eq_nesting_add path⟩
  · intro hle e he path hpath
    have hpathle := hle e he path hpath
    rw [nesting_eq_spending_add] at hpathle
    omega
  · intro hleft e he path hpath
    have hspending := (hbounded e he path hpath).1
    have hturns := hleft e he path hpath
    rw [nesting_eq_spending_add]
    omega

/-- So many `!` in front of a variable. -/
def negated (slot : Nat) : Nat → Expr
  | 0 => .var slot
  | k + 1 => .unary .not (negated slot k)

theorem paths_negated (slot k : Nat) :
    (negated slot k).paths = [List.replicate k .operand] := by
  induction k with
  | zero => rfl
  | succ k ih => rw [negated, Expr.paths, ih, List.map_singleton, List.replicate_succ]

theorem derives_name {limit depth : Nat} {slotOf : String → Nat} (x : String) :
    Derives limit slotOf .operand depth [.name x] (.var (slotOf x)) :=
  .primary (.name x)

theorem derives_negated {limit depth : Nat} {slotOf : String → Nat} (x : String) {k : Nat}
    (h : depth + k ≤ limit) :
    Derives limit slotOf .operand depth (List.replicate k (.sign .not) ++ [.name x])
      (negated (slotOf x) k) := by
  induction k generalizing depth with
  | zero => exact derives_name x
  | succ k ih => exact .unary rfl (by omega) (ih (by omega))

/-- The lexemes of `n + n + n` with so many `!` in front. -/
def negatedSum (k : Nat) : List Lexeme :=
  List.replicate k (.sign .not) ++ [.name "n"] ++ .sign (.operator .add) :: [.name "n"] ++
    .sign (.operator .add) :: [.name "n"]

/-- The tree of the sum, in which the variable has this slot. -/
def negatedSumTree (slot k : Nat) : Expr :=
  .binary .add (.binary .add (negated slot k) (.var slot)) (.var slot)

theorem derives_negatedSum {limit depth k : Nat} {slotOf : String → Nat}
    (hk : depth + k ≤ limit) (hchain : depth + 2 ≤ limit) :
    Derives limit slotOf (.chain 0) depth (negatedSum k) (negatedSumTree (slotOf "n") k) := by
  have operand {depth : Nat} {ls : List Lexeme} {e : Expr}
      (h : Derives limit slotOf .operand depth ls e) : Derives limit slotOf (.chain 5) depth ls e :=
    h.chain_of_operand (by decide)
  have hop : .add ∈ operatorsAt 4 := List.mem_cons_self
  have hfirst := Derives.first (by decide) (operand (derives_negated "n" hk))
  have hsecond := hfirst.next hop (by omega) (operand (derives_name "n"))
  have hthird := hsecond.next hop hchain (operand (derives_name "n"))
  exact (Derives.chain hthird).chain_of_le (Nat.zero_le 4) (by decide)

/-- The sum is read when its first operand by itself is not nested too deeply. -/
theorem parse_negatedSum {k : Nat} (h : k + 1 ≤ maxNesting) :
    Program.parse (spelledOut (negatedSum k)) =
      .ok ⟨[negatedSumTree ((slotNames (negatedSum k)).idxOf "n") k],
        slotNames (negatedSum k)⟩ := by
  have hname : (Lexeme.name "n").Spelled := isName_of_mem_reservedNames (by decide)
  have hspelled : ∀ l ∈ negatedSum k, l.Spelled := by
    intro l hl
    simp only [negatedSum, List.mem_append, List.mem_cons, List.mem_replicate,
      List.not_mem_nil, or_false] at hl
    rcases hl with ((⟨-, rfl⟩ | rfl) | rfl | rfl) | rfl | rfl
    · trivial
    · exact hname
    · trivial
    · exact hname
    · trivial
    · exact hname
  have hsum (slotOf : String → Nat) :
      Derives maxNesting slotOf (.chain 0) 1 (negatedSum k) (negatedSumTree (slotOf "n") k) :=
    derives_negatedSum (by omega) (by decide)
  exact Program.parse_spelledOut hspelled
    (.last (.expression (.value (by decide) (.condition (hsum _)))))

/-- The path to the variable behind the `!`, past both operators of the chain. -/
def firstOperandPath (k : Nat) : List Turn :=
  .left :: .left :: List.replicate k .operand

theorem paths_negatedSumTree (slot k : Nat) :
    (negatedSumTree slot k).paths = [firstOperandPath k, [.left, .right], [.right]] := by
  simp only [negatedSumTree, Expr.paths, paths_negated, List.map_singleton]
  rfl

theorem nesting_firstOperandPath (k : Nat) : nesting (firstOperandPath k) = k + 2 := by
  rw [firstOperandPath, nesting_cons rfl, nesting_cons rfl, nesting, List.countP_replicate]
  rfl

theorem spending_firstOperandPath (k : Nat) : spending (firstOperandPath k) = k := by
  rw [firstOperandPath, spending_left, spending_left, spending, List.countP_replicate]
  rfl

/-- A first operand that takes 126 levels leaves two, and the chain turns left twice: the program
is just as deep as the limit. -/
theorem nesting_le_maxNesting_iff_of_negatedSum :
    ∃ p, Program.parse (spelledOut (negatedSum 126)) = .ok p ∧
      (∀ e ∈ p.statements, ∀ path ∈ e.paths, path.count .left ≤ maxNesting - spending path) ∧
      (∀ e ∈ p.statements, ∀ path ∈ e.paths, nesting path ≤ maxNesting) ∧
      ∃ e ∈ p.statements, ∃ path ∈ e.paths,
        spending path = 126 ∧ path.count .left = 2 ∧ nesting path = maxNesting := by
  have h := parse_negatedSum (show 126 + 1 ≤ maxNesting by decide)
  have hturns : (firstOperandPath 126).count .left = 2 := rfl
  have hleft (slot : Nat) : ∀ e ∈ [negatedSumTree slot 126], ∀ path ∈ e.paths,
      path.count .left ≤ maxNesting - spending path := by
    rw [List.forall_mem_singleton, paths_negatedSumTree, List.forall_mem_cons, hturns,
      spending_firstOperandPath]
    decide
  refine ⟨_, h, hleft _, (nesting_le_maxNesting_iff h).2.2 (hleft _), _, List.mem_singleton_self _,
    firstOperandPath 126, ?_, spending_firstOperandPath 126, hturns, nesting_firstOperandPath 126⟩
  rw [paths_negatedSumTree]
  exact List.mem_cons_self

/-- A first operand that takes 127 levels is read, and then the two operators of the chain nest it
deeper than the limit. -/
theorem exists_maxNesting_lt_nesting :
    ∃ p, Program.parse (spelledOut (negatedSum 127)) = .ok p ∧
      ∃ e ∈ p.statements, ∃ path ∈ e.paths, maxNesting < nesting path := by
  have h := parse_negatedSum (show 127 + 1 ≤ maxNesting by decide)
  refine ⟨_, h, _, List.mem_singleton_self _, firstOperandPath 127, ?_, ?_⟩
  · rw [paths_negatedSumTree]
    exact List.mem_cons_self
  · rw [nesting_firstOperandPath]
    decide

end Phrasebook.Plural
