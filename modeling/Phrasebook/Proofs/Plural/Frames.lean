import Phrasebook.Proofs.Plural.Evaluation

/-!
# What an evaluation leaves alone

An evaluation writes no slot that the expression does not assign (`WritesOnly`,
`Expr.writesOnly_of_eval`).  So statements that were made for a short environment run in the
beginning of a longer one, whose end stays as it is (`runAll_append_env`).
-/

namespace Phrasebook.Plural

namespace Expr

theorem mem_slots_of_assigns {slot : Nat} {e : Expr} (h : e.assigns slot = true) :
    slot ∈ e.slots := by
  induction e with
  | lit | var => cases h
  | unary op e ih => exact ih h
  | binary op l r ihl ihr =>
    rw [assigns, Bool.or_eq_true] at h
    exact List.mem_append.2 (h.imp ihl ihr)
  | cond c t f ihc iht ihf =>
    rw [assigns, Bool.or_eq_true, Bool.or_eq_true, or_assoc] at h
    exact List.mem_append.2 (h.imp ihc fun h => List.mem_append.2 (h.imp iht ihf))
  | assign target e ih =>
    rw [assigns, Bool.or_eq_true, decide_eq_true_eq] at h
    exact List.mem_cons.2 (h.imp Eq.symm ih)

theorem slots_rename (f : Nat → Nat) (e : Expr) : (e.rename f).slots = e.slots.map f := by
  induction e with
  | lit | var => rfl
  | unary op e ih => exact ih
  | binary op l r ihl ihr => rw [rename, slots, slots, ihl, ihr, List.map_append]
  | cond c t f ihc iht ihf =>
    rw [rename, slots, slots, ihc, iht, ihf, List.map_append, List.map_append]
  | assign slot e ih => rw [rename, slots, slots, ih, List.map_cons]

end Expr

/-! ### Slots that are not written -/

/-- The second environment may come out of the first one by writes to slots of `written`. -/
structure WritesOnly (written : Nat → Bool) (env env₁ : Env) : Prop where
  length : env₁.length = env.length
  kept : ∀ slot, written slot = false → env₁[slot]? = env[slot]?

namespace WritesOnly

variable {written : Nat → Bool} {env env₁ env₂ : Env}

theorem refl (written : Nat → Bool) (env : Env) : WritesOnly written env env :=
  ⟨rfl, fun _ _ => rfl⟩

theorem trans (h : WritesOnly written env env₁) (h' : WritesOnly written env₁ env₂) :
    WritesOnly written env env₂ :=
  ⟨h'.length.trans h.length, fun slot hslot => (h'.kept slot hslot).trans (h.kept slot hslot)⟩

theorem left (h : WritesOnly written env env₁) (written' : Nat → Bool) :
    WritesOnly (fun slot => written slot || written' slot) env env₁ :=
  ⟨h.length, fun slot hslot => h.kept slot (Bool.or_eq_false_iff.1 hslot).1⟩

theorem right (h : WritesOnly written env env₁) (written' : Nat → Bool) :
    WritesOnly (fun slot => written' slot || written slot) env env₁ :=
  ⟨h.length, fun slot hslot => h.kept slot (Bool.or_eq_false_iff.1 hslot).2⟩

theorem set {target : Nat} (h : written target = true) (env : Env) (v : Int64) :
    WritesOnly written env (env.set target v) := by
  refine ⟨List.length_set, fun slot hslot => List.getElem?_set_ne ?_⟩
  rintro rfl
  rw [h] at hslot
  cases hslot

end WritesOnly

/-- Whatever an evaluation skips, it writes no slot that the expression does not assign. -/
theorem Expr.writesOnly_of_eval {e : Expr} {env env₁ : Env} {v : Int64}
    (h : e.eval env = some (v, env₁)) : WritesOnly (fun slot => e.assigns slot) env env₁ := by
  induction e generalizing env env₁ v with
  | lit w =>
    cases h
    exact .refl _ env
  | var slot =>
    rw [eval_var, Option.map_eq_some_iff] at h
    obtain ⟨w, -, heq⟩ := h
    cases heq
    exact .refl _ env
  | unary op e ih =>
    obtain ⟨w, he, -⟩ := eval_unary_eq_some_iff.1 h
    exact ih he
  | binary op l r ihl ihr =>
    obtain ⟨u, env', hl, hrest⟩ := eval_binary_eq_some_iff.1 h
    have hleft := (ihl hl).left fun slot => r.assigns slot
    rcases hrest with ⟨-, rfl⟩ | ⟨-, w, hr, -⟩
    · exact hleft
    · exact hleft.trans ((ihr hr).right _)
  | cond c t f ihc iht ihf =>
    obtain ⟨u, env', hc, hbranch⟩ := eval_cond_eq_some_iff.1 h
    have hcondition := ((ihc hc).left fun slot => t.assigns slot).left fun slot => f.assigns slot
    split at hbranch
    · exact hcondition.trans (((iht hbranch).right _).left _)
    · exact hcondition.trans ((ihf hbranch).right _)
  | assign target e ih =>
    obtain ⟨env', he, -, rfl⟩ := eval_assign_eq_some_iff.1 h
    have htarget : (assign target e).assigns target = true := by
      rw [assigns, decide_eq_true rfl, Bool.true_or]
    exact ((ih he).right _).trans (.set htarget env' v)

/-! ### Runs of statements -/

section
variable {es : List Expr} {env env₁ : Env}

theorem writesOnly_of_runAll (h : runAll es env = some env₁) :
    WritesOnly (fun slot => es.any (Expr.assigns slot)) env env₁ := by
  induction es generalizing env with
  | nil =>
    cases h
    exact .refl _ _
  | cons e es ih =>
    cases he : e.eval env with
    | none =>
      rw [runAll, List.foldlM_cons, he] at h
      cases h
    | some r =>
      rw [runAll_cons he] at h
      exact ((Expr.writesOnly_of_eval he).left _).trans ((ih h).right _)

theorem map_rename_id (es : List Expr) : es.map (Expr.rename id) = es :=
  (List.map_congr_left fun _ _ => Expr.rename_eq_self fun _ _ => rfl).trans (List.map_id es)

/-- Statements run in the beginning of a longer environment. -/
theorem runAll_append_env (h : ∀ e ∈ es, ∀ slot ∈ e.slots, slot < env.length) (extra : Env) :
    ∃ env₁, runAll es env = some env₁ ∧ env₁.length = env.length ∧
      runAll es (env ++ extra) = some (env₁ ++ extra) := by
  have hmatches : Matches (· < env.length) id env (env ++ extra) := by
    intro i hi
    exact ⟨env[i], List.getElem?_eq_getElem hi, by rw [id, List.getElem?_append_left hi,
      List.getElem?_eq_getElem hi]⟩
  have hinj : ∀ i j, i < env.length → j < env.length → id i = id j → i = j :=
    fun _ _ _ _ heq => heq
  obtain ⟨env₁, env₁', hrun, hrun', hsame⟩ := runAll_rename hinj h hmatches
  rw [map_rename_id] at hrun'
  have hlen := (writesOnly_of_runAll hrun).length
  have hkeep := (writesOnly_of_runAll hrun').kept
  refine ⟨env₁, hrun, hlen, hrun'.trans (congrArg some ?_)⟩
  refine List.ext_getElem? fun i => ?_
  by_cases hi : i < env.length
  · obtain ⟨v, hv, hv'⟩ := hsame i hi
    rw [List.getElem?_append_left (hlen ▸ hi), hv]
    exact hv'
  · have hkept : es.any (Expr.assigns i) = false := by
      refine Bool.eq_false_iff.2 fun hany => hi ?_
      obtain ⟨e, he, hassigns⟩ := List.any_eq_true.1 hany
      exact h e he i (Expr.mem_slots_of_assigns hassigns)
    rw [hkeep i hkept, List.getElem?_append_right (by omega),
      List.getElem?_append_right (by omega), hlen]

end

end Phrasebook.Plural
