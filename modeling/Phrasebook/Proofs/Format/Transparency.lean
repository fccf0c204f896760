import Phrasebook.Format.Message
import Phrasebook.Proofs.Format.Records
import Phrasebook.Proofs.Markup.Flattening

/-!
# Messages whose transforms have no effect

A transform has no effect on a text if it gives back what it gets, or if the text has no tag of its
name.  With such transforms only, a message loses its tags and nothing else, however they nest.
Where there is no tag it makes no difference that the markup is read: the two ways that a message
can be formatted are `format_of_hasTransforms` and `format_of_not_hasTransforms`.
-/

namespace Phrasebook.Message

open Markup (Transparent elementNames scan visibleText visibleText_scan_eq_self)

variable {m : Type → Type} [Monad m] {values : Values (String → m String)}

/-- Without transforms the text with its scalars is all there is. -/
theorem format_of_not_hasTransforms (h : values.hasTransforms = false) (message : Message) :
    message.format values = pure (Template.substitute message.text values.scalars) := by
  have hempty : values.transforms.isEmpty = true := by rw [values.isEmpty_transforms, h]; rfl
  rw [format, rich, if_pos hempty]
  rfl

theorem format_of_hasTransforms (h : values.hasTransforms = true) (message : Message) :
    message.format values = Markup.render values.transforms.get?
      (Markup.parse (Template.substitute message.text values.scalars)) := by
  have hempty : ¬ values.transforms.isEmpty = true := by rw [values.isEmpty_transforms, h]; simp
  rw [format, rich, if_neg hempty]

/-- A message whose transforms have no effect on it loses its tags, as it does when it is rendered
without transforms.  If it has no tag, a record without transforms gives the same. -/
theorem format_of_transparent [LawfulMonad m] {message : Message} {text : String}
    (htext : Template.substitute message.text values.scalars = text)
    (hsome : values.hasTransforms = true)
    (heffect : ∀ key f, values.get? key = some (.transform f) →
      (∀ inner, f inner = pure inner) ∨ key ∉ elementNames (scan text)) :
    message.format values = pure (visibleText (scan text)) ∧
      Markup.render (Table.empty : Table (String → m String)).get? (Markup.parse text) =
        pure (visibleText (scan text)) ∧
      ((∀ t ∈ scan text, t.shape = .text) → visibleText (scan text) = text ∧
        ∀ bare : Values (String → m String), bare.hasTransforms = false →
          (∀ key, bare.scalars.get? key = values.scalars.get? key) →
          message.format bare = message.format values) := by
  have htransparent : Transparent values.transforms.get? (elementNames (scan text)) :=
    fun key f hf => heffect key f (Values.get?_transforms_eq_some.1 hf)
  have hformat : message.format values = pure (visibleText (scan text)) := by
    rw [format_of_hasTransforms hsome, htext, htransparent.render_parse]
  refine ⟨hformat, (Markup.transparent_empty _).render_parse, fun hplain => ?_⟩
  have hvisible := visibleText_scan_eq_self hplain
  refine ⟨hvisible, fun bare hbare hscalars => ?_⟩
  rw [format_of_not_hasTransforms hbare, Template.substitute_congr hscalars, htext, hformat,
    hvisible]

/-- A name with markup in it, the identity for bold, and a transform for a tag that is nowhere. -/
def idleValues : Values (String → Id String) :=
  Values.withTransform
    (Values.withTransform (Values.ofScalars [("who", .text "<b>Ada</b>")]) "b" pure)
    "u" fun _ => pure "!"

/-- Bold that comes with a value, and tags that do not nest. -/
theorem format_of_transparent_of_idleValues :
    LawfulMonad Id ∧
      Template.substitute "{{who}} <i>reads</b> on<br/>" idleValues.scalars =
        "<b>Ada</b> <i>reads</b> on<br/>" ∧
      idleValues.hasTransforms = true ∧
      (∀ key f, idleValues.get? key = some (.transform f) → (∀ inner, f inner = pure inner) ∨
        key ∉ elementNames (scan "<b>Ada</b> <i>reads</b> on<br/>")) ∧
      Id.run (format ⟨"{{who}} <i>reads</b> on<br/>"⟩ idleValues) = "Ada reads on" := by
  have htext : Template.substitute "{{who}} <i>reads</b> on<br/>" idleValues.scalars =
      "<b>Ada</b> <i>reads</b> on<br/>" := by decide +kernel
  have hsome : idleValues.hasTransforms = true := by decide
  have hnames : elementNames (scan "<b>Ada</b> <i>reads</b> on<br/>") = ["b", "i", "br"] := by
    decide +kernel
  have hvisible : visibleText (scan "<b>Ada</b> <i>reads</b> on<br/>") = "Ada reads on" := by
    decide +kernel
  have heffect : ∀ key f, idleValues.get? key = some (.transform f) →
      (∀ inner, f inner = pure inner) ∨
        key ∉ elementNames (scan "<b>Ada</b> <i>reads</b> on<br/>") := by
    intro key f hf
    simp only [idleValues, Values.ofScalars, Values.withTransform, Values.withScalar,
      List.foldl_cons, List.foldl_nil, Table.get?_insert, Table.get?_empty] at hf
    split at hf
    · next hkey =>
      right
      simp [hnames, hkey]
    · split at hf
      · cases hf
        exact .inl fun _ => rfl
      · split at hf <;> cases hf
  refine ⟨inferInstance, htext, hsome, heffect, ?_⟩
  rw [(format_of_transparent htext hsome heffect).1, hvisible]
  rfl

end Phrasebook.Message
