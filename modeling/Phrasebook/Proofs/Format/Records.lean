import Phrasebook.Format.Template
import Phrasebook.Format.Values
import Phrasebook.Proofs.Tables

/-!
# What a record says of a key

The halves of a record are known by what they say of each key: a key that is bound to a scalar is
bound in the one half and not in the other (`get?_scalars`, `get?_transforms`).  Substitution asks
nothing else of the scalars, so neither the order of a record nor the keys that are bound to
transforms have a part in it (`substitute_congr`).
-/

namespace Phrasebook

/-! ### Bindings -/

namespace Binding

variable {τ : Type} {b : Binding τ}

theorem scalar?_eq_some_iff {s : Scalar} : b.scalar? = some s ↔ b = .scalar s := by
  cases b <;> simp [scalar?]

theorem transform?_eq_some_iff {f : τ} : b.transform? = some f ↔ b = .transform f := by
  cases b <;> simp [transform?]

end Binding

/-! ### Halves -/

namespace Values

variable {τ : Type}

theorem get?_scalars (v : Values τ) (key : String) :
    v.scalars.get? key = (v.get? key).bind Binding.scalar? :=
  v.get?_filterMap Binding.scalar? key

theorem get?_transforms (v : Values τ) (key : String) :
    v.transforms.get? key = (v.get? key).bind Binding.transform? :=
  v.get?_filterMap Binding.transform? key

theorem get?_scalars_eq_some {v : Values τ} {key : String} {s : Scalar} :
    v.scalars.get? key = some s ↔ v.get? key = some (.scalar s) :=
  Table.get?_filterMap_eq_some Binding.scalar?_eq_some_iff

theorem get?_transforms_eq_some {v : Values τ} {key : String} {f : τ} :
    v.transforms.get? key = some f ↔ v.get? key = some (.transform f) :=
  Table.get?_filterMap_eq_some Binding.transform?_eq_some_iff

theorem isEmpty_transforms (v : Values τ) : v.transforms.isEmpty = !v.hasTransforms := by
  rw [Bool.eq_iff_iff, Bool.not_eq_true', hasTransforms, List.any_eq_false]
  simp [transforms, Table.isEmpty, Table.filterMap]

end Values

/-! ### Substitution -/

namespace Template

variable {ts us : Table Scalar}

theorem Piece.fill_congr (h : ∀ key, ts.get? key = us.get? key) (p : Piece) :
    p.fill ts = p.fill us := by
  cases p with
  | char c => rfl
  | placeholder inner => rw [fill, fill, h]

theorem substitute_congr (h : ∀ key, ts.get? key = us.get? key) (template : String) :
    substitute template ts = substitute template us := by
  have hempty : ts.isEmpty = us.isEmpty := Table.isEmpty_congr fun key => by rw [h]
  have hfill : Piece.fill ts = Piece.fill us := funext (Piece.fill_congr h)
  rw [substitute, substitute, hempty, hfill]

end Template

end Phrasebook
