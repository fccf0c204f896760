import Phrasebook.Plural.Program

/-!
# Evaluation of plural expressions

An evaluation touches only the slots of its expression, so it gives a result in every environment
that has them (`Expr.exists_eval`).  When the slots are renamed without running two into one, the
evaluation runs in step with the one before (`Expr.eval_rename`, `run_rename`): the same value comes
out, and the environments still match (`Matches`).
-/

namespace Phrasebook.Plural

/-- The value of an operator that its left operand alone decides. -/
def BinaryOperator.shortcut : BinaryOperator → Int64 → Option Int64
  | or, v => if v ≠ 0 then some 1 else none
  | and, v => if v = 0 then some 0 else none
  | _, _ => none

namespace Expr

/-! ### Slots -/

/-- The slots that are read or written, in the order in which they are written down. -/
def slots : Expr → List Nat
  | lit _ => []
  | var slot => [slot]
  | unary _ e => e.slots
  | binary _ l r => l.slots ++ r.slots
  | cond c t f => c.slots ++ (t.slots ++ f.slots)
  | assign slot e => slot :: e.slots

def rename (f : Nat → Nat) : Expr → Expr
  | lit v => lit v
  | var slot => var (f slot)
  | unary op e => unary op (e.rename f)
  | binary op l r => binary op (l.rename f) (r.rename f)
  | cond c t e => cond (c.rename f) (t.rename f) (e.rename f)
  | assign slot e => assign (f slot) (e.rename f)

theorem rename_eq_self {f : Nat → Nat} {e : Expr} (h : ∀ slot ∈ e.slots, f slot = slot) :
    e.rename f = e := by
  induction e with
  | lit v => rfl
  | var slot => rw [rename, h slot (List.mem_singleton_self slot)]
  | unary op e ih => rw [rename, ih h]
  | binary op l r ihl ihr =>
    obtain ⟨hl, hr⟩ := List.forall_mem_append.1 h
    rw [rename, ihl hl, ihr hr]
  | cond c t e ihc iht ihe =>
    obtain ⟨hc, h⟩ := List.forall_mem_append.1 h
    obtain ⟨ht, he⟩ := List.forall_mem_append.1 h
    rw [rename, ihc hc, iht ht, ihe he]
  | assign slot e ih =>
    obtain ⟨hs, he⟩ := List.forall_mem_cons.1 h
    rw [rename, hs, ih he]

theorem assigns_rename {f : Nat → Nat} {slot : Nat} {e : Expr}
    (h : ∀ i ∈ e.slots, f i = f slot → i = slot) :
    (e.rename f).assigns (f slot) = e.assigns slot := by
  induction e with
  | lit v => rfl
  | var slot => rfl
  | unary op e ih => rw [rename, assigns, assigns, ih h]
  | binary op l r ihl ihr =>
    obtain ⟨hl, hr⟩ := List.forall_mem_append.1 h
    rw [rename, assigns, assigns, ihl hl, ihr hr]
  | cond c t e ihc iht ihe =>
    obtain ⟨hc, h⟩ := List.forall_mem_append.1 h
    obtain ⟨ht, he⟩ := List.forall_mem_append.1 h
    rw [rename, assigns, assigns, ihc hc, iht ht, ihe he]
  | assign target e ih =>
    obtain ⟨hs, he⟩ := List.forall_mem_cons.1 h
    have hiff : f target = f slot ↔ target = slot := ⟨hs, fun heq => heq ▸ rfl⟩
    rw [rename, assigns, assigns, ih he, decide_eq_decide.2 hiff]

/-! ### Evaluation of each kind of expression -/

section
variable {env env₁ env₂ : Env} {u v w : Int64} {slot : Nat} {op : BinaryOperator}
  {c e f l r t : Expr}

theorem eval_var : (var slot).eval env = env[slot]?.map fun v => (v, env) := rfl

theorem eval_unary_eq_some_iff {op : UnaryOperator} :
    (unary op e).eval env = some (w, env₁) ↔
      ∃ v, e.eval env = some (v, env₁) ∧ op.apply v = w := by
  show (e.eval env).bind (fun p => some (op.apply p.1, p.2)) = some (w, env₁) ↔ _
  rw [Option.bind_eq_some_iff]
  constructor
  · rintro ⟨⟨v, env'⟩, he, hresult⟩
    cases hresult
    exact ⟨v, he, rfl⟩
  · rintro ⟨v, he, rfl⟩
    exact ⟨_, he, rfl⟩

/-- Every operator evaluates its left operand, and the right one unless the left one decides. -/
theorem eval_binary_eq : (binary op l r).eval env =
    (l.eval env).bind fun p =>
      match op.shortcut p.1 with
      | some u => some (u, p.2)
      | none => (r.eval p.2).bind fun q => some (op.apply p.1 q.1, q.2) := by
  cases op with
  | or =>
    show (l.eval env).bind (fun p => if p.1 ≠ 0 then some (1, p.2) else
      (r.eval p.2).bind fun q => some (truth (q.1 ≠ 0), q.2)) = _
    refine congrArg _ (funext fun p => ?_)
    by_cases hp : p.1 = 0
    · simp only [BinaryOperator.shortcut, BinaryOperator.apply, hp]
      rfl
    · simp only [BinaryOperator.shortcut, if_pos hp, ne_eq]
  | and =>
    show (l.eval env).bind (fun p => if p.1 = 0 then some (0, p.2) else
      (r.eval p.2).bind fun q => some (truth (q.1 ≠ 0), q.2)) = _
    refine congrArg _ (funext fun p => ?_)
    by_cases hp : p.1 = 0
    · simp only [BinaryOperator.shortcut, if_pos hp]
    · simp only [BinaryOperator.shortcut, BinaryOperator.apply, if_neg hp, ne_eq,
        decide_eq_true hp, Bool.true_and]
  | equals | notEquals | lower | greater | lowerEquals | greaterEquals | add | subtract
  | multiply | divide | modulo => rfl

theorem eval_binary_eq_some_iff :
    (binary op l r).eval env = some (u, env₂) ↔
      ∃ v env₁, l.eval env = some (v, env₁) ∧
        ((op.shortcut v = some u ∧ env₁ = env₂) ∨
          (op.shortcut v = none ∧ ∃ w, r.eval env₁ = some (w, env₂) ∧ op.apply v w = u)) := by
  rw [eval_binary_eq, Option.bind_eq_some_iff]
  constructor
  · rintro ⟨⟨v, env₁⟩, hl, hresult⟩
    refine ⟨v, env₁, hl, ?_⟩
    dsimp only at hresult
    split at hresult
    · next hu =>
      cases hresult
      exact .inl ⟨hu, rfl⟩
    · next hu =>
      obtain ⟨⟨w, env'⟩, hr, heq⟩ := Option.bind_eq_some_iff.1 hresult
      cases heq
      exact .inr ⟨hu, w, hr, rfl⟩
  · rintro ⟨v, env₁, hl, ⟨hu, rfl⟩ | ⟨hu, w, hr, rfl⟩⟩
    · exact ⟨_, hl, by rw [hu]⟩
    · exact ⟨_, hl, by rw [hu, hr]; rfl⟩

theorem eval_cond_eq : (cond c t f).eval env =
    (c.eval env).bind fun p => if p.1 ≠ 0 then t.eval p.2 else f.eval p.2 := rfl

theorem eval_cond_eq_some_iff : (cond c t f).eval env = some (w, env₂) ↔
    ∃ v env₁, c.eval env = some (v, env₁) ∧
      (if v ≠ 0 then t.eval env₁ else f.eval env₁) = some (w, env₂) := by
  rw [eval_cond_eq, Option.bind_eq_some_iff, Prod.exists]

theorem eval_assign_eq_some_iff : (assign slot e).eval env = some (v, env₂) ↔
    ∃ env₁, e.eval env = some (v, env₁) ∧ slot < env₁.length ∧ env₁.set slot v = env₂ := by
  show (e.eval env).bind (fun p =>
    if slot < p.2.length then some (p.1, p.2.set slot p.1) else none) = _ ↔ _
  rw [Option.bind_eq_some_iff]
  constructor
  · rintro ⟨⟨v, env₁⟩, he, hresult⟩
    obtain ⟨hslot, heq⟩ := Option.ite_none_right_eq_some.1 hresult
    cases heq
    exact ⟨env₁, he, hslot, rfl⟩
  · rintro ⟨env₁, he, hslot, rfl⟩
    exact ⟨_, he, if_pos hslot⟩

theorem eval_unary {op : UnaryOperator} (he : e.eval env = some (v, env₁)) :
    (unary op e).eval env = some (op.apply v, env₁) :=
  eval_unary_eq_some_iff.2 ⟨v, he, rfl⟩

theorem eval_binary_shortcut (hl : l.eval env = some (v, env₁)) (hu : op.shortcut v = some u) :
    (binary op l r).eval env = some (u, env₁) :=
  eval_binary_eq_some_iff.2 ⟨v, env₁, hl, .inl ⟨hu, rfl⟩⟩

/-- An operator that is not decided early is applied to the values of both operands. -/
theorem eval_binary (hl : l.eval env = some (v, env₁)) (hu : op.shortcut v = none)
    (hr : r.eval env₁ = some (w, env₂)) :
    (binary op l r).eval env = some (op.apply v w, env₂) :=
  eval_binary_eq_some_iff.2 ⟨v, env₁, hl, .inr ⟨hu, w, hr, rfl⟩⟩

theorem eval_cond (hc : c.eval env = some (v, env₁)) :
    (cond c t f).eval env = if v ≠ 0 then t.eval env₁ else f.eval env₁ := by
  rw [eval_cond_eq, hc, Option.bind_some]

theorem eval_assign (he : e.eval env = some (v, env₁)) (hslot : slot < env₁.length) :
    (assign slot e).eval env = some (v, env₁.set slot v) :=
  eval_assign_eq_some_iff.2 ⟨env₁, he, hslot, rfl⟩

end

/-! ### Evaluation with slots in range -/

/-- An expression whose slots the environment has evaluates, and the environment keeps its
length. -/
theorem exists_eval {e : Expr} {env : Env} (h : ∀ slot ∈ e.slots, slot < env.length) :
    ∃ v env', e.eval env = some (v, env') ∧ env'.length = env.length := by
  induction e generalizing env with
  | lit v => exact ⟨v, env, rfl, rfl⟩
  | var slot =>
    have hslot := h slot (List.mem_singleton_self slot)
    refine ⟨env[slot], env, ?_, rfl⟩
    rw [eval_var, List.getElem?_eq_getElem hslot]
    rfl
  | unary op e ih =>
    obtain ⟨v, env', he, hlen⟩ := ih h
    exact ⟨_, _, eval_unary he, hlen⟩
  | binary op l r ihl ihr =>
    obtain ⟨hl, hr⟩ := List.forall_mem_append.1 h
    obtain ⟨v, env₁, hv, hlen₁⟩ := ihl hl
    cases hu : op.shortcut v with
    | some u => exact ⟨_, _, eval_binary_shortcut hv hu, hlen₁⟩
    | none =>
      rw [← hlen₁] at hr
      obtain ⟨w, env₂, hw, hlen₂⟩ := ihr hr
      exact ⟨_, _, eval_binary hv hu hw, hlen₂.trans hlen₁⟩
  | cond c t f ihc iht ihf =>
    obtain ⟨hc, h⟩ := List.forall_mem_append.1 h
    obtain ⟨ht, hf⟩ := List.forall_mem_append.1 h
    obtain ⟨v, env₁, hv, hlen₁⟩ := ihc hc
    rw [← hlen₁] at ht hf ⊢
    rw [eval_cond hv]
    split
    · exact iht ht
    · exact ihf hf
  | assign slot e ih =>
    obtain ⟨hs, he⟩ := List.forall_mem_cons.1 h
    obtain ⟨v, env₁, hv, hlen⟩ := ih he
    refine ⟨_, _, eval_assign hv (hlen ▸ hs), ?_⟩
    rw [List.length_set, hlen]

end Expr

/-! ### Evaluation with renamed slots -/

/-- The slots in use hold the same values under their old and new numbers. -/
def Matches (used : Nat → Prop) (f : Nat → Nat) (env env' : Env) : Prop :=
  ∀ i, used i → ∃ v, env[i]? = some v ∧ env'[f i]? = some v

section
variable {used : Nat → Prop} {f : Nat → Nat} {env env' : Env}

theorem Matches.set (h : Matches used f env env')
    (hinj : ∀ i j, used i → used j → f i = f j → i = j) {slot : Nat} (hslot : used slot)
    (v : Int64) : Matches used f (env.set slot v) (env'.set (f slot) v) := by
  intro i hi
  obtain ⟨w, hw, hw'⟩ := h i hi
  obtain ⟨hlt, -⟩ := List.getElem?_eq_some_iff.1 hw
  obtain ⟨hlt', -⟩ := List.getElem?_eq_some_iff.1 hw'
  by_cases heq : slot = i
  · subst heq
    refine ⟨v, ?_, ?_⟩
    · rw [List.getElem?_set_self hlt]
    · rw [List.getElem?_set_self hlt']
  · have hne : f slot ≠ f i := fun hf => heq (hinj slot i hslot hi hf)
    refine ⟨w, ?_, ?_⟩
    · rw [List.getElem?_set_ne heq, hw]
    · rw [List.getElem?_set_ne hne, hw']

/-- Evaluation before and after a renaming runs in step. -/
theorem Expr.eval_rename (hinj : ∀ i j, used i → used j → f i = f j → i = j) {e : Expr}
    (hused : ∀ slot ∈ e.slots, used slot) (h : Matches used f env env') :
    ∃ v env₁ env₁', e.eval env = some (v, env₁) ∧ (e.rename f).eval env' = some (v, env₁') ∧
      Matches used f env₁ env₁' := by
  induction e generalizing env env' with
  | lit v => exact ⟨v, env, env', rfl, rfl, h⟩
  | var slot =>
    obtain ⟨v, hv, hv'⟩ := h slot (hused slot (List.mem_singleton_self slot))
    refine ⟨v, env, env', ?_, ?_, h⟩
    · rw [eval_var, hv]
      rfl
    · rw [rename, eval_var, hv']
      rfl
  | unary op e ih =>
    obtain ⟨v, env₁, env₁', he, he', h₁⟩ := ih hused h
    exact ⟨_, _, _, eval_unary he, eval_unary he', h₁⟩
  | binary op l r ihl ihr =>
    obtain ⟨hl, hr⟩ := List.forall_mem_append.1 hused
    obtain ⟨v, env₁, env₁', hv, hv', h₁⟩ := ihl hl h
    cases hu : op.shortcut v with
    | some u => exact ⟨_, _, _, eval_binary_shortcut hv hu, eval_binary_shortcut hv' hu, h₁⟩
    | none =>
      obtain ⟨w, env₂, env₂', hw, hw', h₂⟩ := ihr hr h₁
      exact ⟨_, _, _, eval_binary hv hu hw, eval_binary hv' hu hw', h₂⟩
  | cond c t e ihc iht ihe =>
    obtain ⟨hc, hused⟩ := List.forall_mem_append.1 hused
    obtain ⟨ht, he⟩ := List.forall_mem_append.1 hused
    obtain ⟨v, env₁, env₁', hv, hv', h₁⟩ := ihc hc h
    rw [rename, eval_cond hv, eval_cond hv']
    split
    · exact iht ht h₁
    · exact ihe he h₁
  | assign slot e ih =>
    obtain ⟨hs, he⟩ := List.forall_mem_cons.1 hused
    obtain ⟨v, env₁, env₁', hv, hv', h₁⟩ := ih he h
    obtain ⟨w, hw, hw'⟩ := h₁ slot hs
    obtain ⟨hlt, -⟩ := List.getElem?_eq_some_iff.1 hw
    obtain ⟨hlt', -⟩ := List.getElem?_eq_some_iff.1 hw'
    exact ⟨_, _, _, eval_assign hv hlt, eval_assign hv' hlt', h₁.set hinj hs v⟩

end

/-! ### Runs of statements -/

/-- Evaluates statements in order and gives the environment they leave. -/
def runAll (es : List Expr) (env : Env) : Option Env :=
  es.foldlM (fun env e => (e.eval env).map Prod.snd) env

section
variable {e : Expr} {es : List Expr} {env env' env₁ : Env} {v : Int64}

theorem runAll_cons (he : e.eval env = some (v, env₁)) :
    runAll (e :: es) env = runAll es env₁ := by
  rw [runAll, List.foldlM_cons, he]
  rfl

theorem runAll_append (es fs : List Expr) (env : Env) :
    runAll (es ++ fs) env = (runAll es env).bind (runAll fs) :=
  List.foldlM_append

theorem exists_runAll (h : ∀ e ∈ es, ∀ slot ∈ e.slots, slot < env.length) :
    ∃ env₁, runAll es env = some env₁ ∧ env₁.length = env.length := by
  induction es generalizing env with
  | nil => exact ⟨env, rfl, rfl⟩
  | cons e es ih =>
    obtain ⟨he, hes⟩ := List.forall_mem_cons.1 h
    obtain ⟨v, env₁, hv, hlen⟩ := Expr.exists_eval he
    rw [runAll_cons hv, ← hlen]
    exact ih (hlen ▸ hes)

theorem runAll_rename {used : Nat → Prop} {f : Nat → Nat}
    (hinj : ∀ i j, used i → used j → f i = f j → i = j)
    (hused : ∀ e ∈ es, ∀ slot ∈ e.slots, used slot) (h : Matches used f env env') :
    ∃ env₁ env₁', runAll es env = some env₁ ∧
      runAll (es.map (Expr.rename f)) env' = some env₁' ∧ Matches used f env₁ env₁' := by
  induction es generalizing env env' with
  | nil => exact ⟨env, env', rfl, rfl, h⟩
  | cons e es ih =>
    obtain ⟨he, hes⟩ := List.forall_mem_cons.1 hused
    obtain ⟨v, env₁, env₁', hv, hv', h₁⟩ := Expr.eval_rename hinj he h
    rw [List.map_cons, runAll_cons hv, runAll_cons hv']
    exact ih hes h₁

end

/-! ### Runs of programs -/

namespace Program

theorem run_eq_runAll (p : Program) (n : Int64) : p.run n = runAll p.statements (p.start n) :=
  rfl

theorem length_start (p : Program) (n : Int64) :
    (p.start n).length = max p.names.length reservedNames.length := by
  rw [start, List.length_set, List.length_replicate]

theorem getElem?_start (p : Program) (n : Int64) {slot : Nat}
    (h : slot < max p.names.length reservedNames.length) :
    (p.start n)[slot]? = some (if slot = countSlot then n else 0) := by
  rw [start, List.getElem?_set, List.length_replicate, List.getElem?_replicate, if_pos h]
  split
  · next heq =>
    subst heq
    rw [if_pos h, if_pos rfl]
  · next hne => rw [if_neg fun heq => hne heq.symm]

theorem exists_run {p : Program} (h : ∀ e ∈ p.statements, ∀ slot ∈ e.slots, slot < p.names.length)
    (n : Int64) :
    ∃ env, p.run n = some env ∧ env.length = max p.names.length reservedNames.length := by
  rw [← length_start p n]
  refine exists_runAll fun e he slot hslot => ?_
  have hlt := h e he slot hslot
  rw [length_start]
  omega

/-- A run before and after a renaming of the slots leaves environments that match. -/
theorem run_rename {used : Nat → Prop} {f : Nat → Nat} {p q : Program} {n : Int64}
    (hinj : ∀ i j, used i → used j → f i = f j → i = j)
    (hused : ∀ e ∈ p.statements, ∀ slot ∈ e.slots, used slot)
    (hq : q.statements = p.statements.map (Expr.rename f))
    (h : Matches used f (p.start n) (q.start n)) :
    ∃ env env', p.run n = some env ∧ q.run n = some env' ∧ Matches used f env env' := by
  rw [run_eq_runAll, run_eq_runAll, hq]
  exact runAll_rename hinj hused h

end Program

end Phrasebook.Plural
