import Phrasebook.Proofs.Markup.Cut
import Phrasebook.Proofs.Markup.Folding
import Phrasebook.Proofs.Markup.Preorder
import Phrasebook.Table

/-!
# Tags without effect disappear

Markup that is rendered to a text keeps its runs of text, in their order, and loses its tags,
wherever no transform has an effect on an element of it (`Transparent`, `Transparent.render_parse`).
How the tags nest plays no part in this: mending adds and leaves out closing tags only, and those
show nothing and name no element (`visibleText_mended`, `elementNames_mended`).  `flatten` is
rendering without any transform.
-/

namespace Phrasebook.Markup

/-! ### What tokens show -/

/-- The runs of text, joined. -/
def visibleText (ts : List Token) : String :=
  String.join ((ts.filter fun t => t.shape = .text).map Token.written)

/-- The name of the element that a tag begins. -/
def Token.elementName? (t : Token) : Option String :=
  match t.shape with
  | .opening name | .selfClosing name => some name
  | .text | .closing _ => none

def elementNames (ts : List Token) : List String :=
  ts.filterMap Token.elementName?

section
variable {t : Token} {name : String} {ts us : List Token}

theorem visibleText_cons_of_text (ht : t.shape = .text) (ts : List Token) :
    visibleText (t :: ts) = t.written ++ visibleText ts := by
  simp [visibleText, ht, String.join_cons]

theorem visibleText_cons_of_ne (ht : t.shape ≠ .text) (ts : List Token) :
    visibleText (t :: ts) = visibleText ts := by
  simp [visibleText, ht]

theorem visibleText_append (ts us : List Token) :
    visibleText (ts ++ us) = visibleText ts ++ visibleText us := by
  simp [visibleText, String.join_append]

theorem Token.elementName?_of_opening (ht : t.shape = .opening name) :
    t.elementName? = some name := by
  rw [elementName?, ht]

theorem Token.elementName?_of_selfClosing (ht : t.shape = .selfClosing name) :
    t.elementName? = some name := by
  rw [elementName?, ht]

theorem elementNames_cons_of_none (ht : t.elementName? = none) (ts : List Token) :
    elementNames (t :: ts) = elementNames ts :=
  List.filterMap_cons_none ht

theorem elementNames_cons_of_some (ht : t.elementName? = some name) (ts : List Token) :
    elementNames (t :: ts) = name :: elementNames ts :=
  List.filterMap_cons_some ht

theorem elementNames_append (ts us : List Token) :
    elementNames (ts ++ us) = elementNames ts ++ elementNames us :=
  List.filterMap_append

/-- Closing tags show nothing and name no element. -/
theorem visibleText_givers (ts : List Token) : visibleText (givers ts) = visibleText ts := by
  induction ts with
  | nil => rfl
  | cons t ts ih =>
    cases ht : t.shape with
    | text =>
      rw [givers_cons (by simp [ht]), visibleText_cons_of_text ht, visibleText_cons_of_text ht, ih]
    | closing name =>
      rw [givers_cons_of_closing ht, visibleText_cons_of_ne (by simp [ht]), ih]
    | opening name | selfClosing name =>
      rw [givers_cons (by simp [ht]), visibleText_cons_of_ne (by simp [ht]),
        visibleText_cons_of_ne (by simp [ht]), ih]

theorem elementNames_givers (ts : List Token) : elementNames (givers ts) = elementNames ts := by
  induction ts with
  | nil => rfl
  | cons t ts ih =>
    cases ht : t.shape with
    | closing name =>
      rw [givers_cons_of_closing ht, elementNames_cons_of_none (by simp [Token.elementName?, ht]),
        ih]
    | text | opening name | selfClosing name =>
      rw [givers_cons (by simp [ht]), ← List.singleton_append, elementNames_append, ih,
        ← elementNames_append, List.singleton_append]

theorem visibleText_mended (opened : List OpenTag) (ts : List Token) :
    visibleText (mended opened ts) = visibleText ts := by
  rw [← visibleText_givers, givers_mended, visibleText_givers]

theorem elementNames_mended (opened : List OpenTag) (ts : List Token) :
    elementNames (mended opened ts) = elementNames ts := by
  rw [← elementNames_givers, givers_mended, elementNames_givers]

/-- The pieces of a cut make up the whole. -/
theorem Cut.join_written {start : Nat} {cs : List Char} (h : Cut start cs ts) :
    String.join (ts.map Token.written) = String.ofList cs := by
  induction h with
  | nil => rfl
  | text _ _ _ _ ih => rw [List.map_cons, String.join_cons, ih, String.ofList_append]
  | tag _ _ ih => rw [List.map_cons, String.join_cons, ih, String.ofList_append]

/-- A text without tags is all visible. -/
theorem visibleText_scan_eq_self {source : String} (h : ∀ t ∈ scan source, t.shape = .text) :
    visibleText (scan source) = source := by
  have hall : (scan source).filter (fun t => t.shape = .text) = scan source :=
    List.filter_eq_self.2 fun t ht => decide_eq_true (h t ht)
  rw [visibleText, hall, (cut_scan source).join_written, String.ofList_toList]

end

/-! ### Transforms without effect -/

section
variable {m : Type → Type} [Monad m] {tag? : String → Option (String → m String)}
  {names : List String}

/-- A transform for one of the names is the identity. -/
def Transparent (tag? : String → Option (String → m String)) (names : List String) : Prop :=
  ∀ name f, tag? name = some f → (∀ inner, f inner = pure inner) ∨ name ∉ names

theorem Transparent.mono {names' : List String} (h : Transparent tag? names)
    (hnames : ∀ name ∈ names', name ∈ names) : Transparent tag? names' := by
  intro name f hf
  exact (h name f hf).imp id fun hname hmem => hname (hnames name hmem)

theorem Transparent.transform_eq (h : Transparent tag? names) {name : String} (hname : name ∈ names)
    (inner : String) : transform tag? (some name) inner = pure inner := by
  rw [transform, Option.bind_some]
  cases hf : tag? name with
  | none => rfl
  | some f => exact ((h name f hf).resolve_right fun hmem => hmem hname) inner

variable [LawfulMonad m]

theorem fold_nil : fold tag? [] = pure "" := by
  rw [fold, foldParts, map_pure]
  rfl

theorem fold_cons (n : Node) (nodes : List Node) :
    fold tag? (n :: nodes) = n.fold tag? >>= fun part => (part ++ ·) <$> fold tag? nodes := by
  simp only [fold, foldParts, map_bind, bind_pure_comp, Functor.map_map]
  refine bind_congr fun part => ?_
  congr 1
  funext parts
  exact String.join_cons

/-- An element that no transform has an effect on shows what its children show. -/
theorem Transparent.fold_element (h : Transparent tag? names) {name : String} (hname : name ∈ names)
    (children : List Node) : Node.fold tag? (.element name children) = fold tag? children := by
  have htransform : transform tag? (some name) = pure := funext (h.transform_eq hname)
  rw [Markup.fold_element, htransform, bind_pure]
  rfl

/-- Well-nested tokens show their runs of text. -/
theorem Denotes.fold_eq {ts : List Token} {nodes : List Node} (hnodes : Denotes ts nodes)
    (h : Transparent tag? (elementNames ts)) : fold tag? nodes = pure (visibleText ts) := by
  induction hnodes with
  | nil => exact fold_nil
  | @text t ts ns ht _ ih =>
    rw [elementNames_cons_of_none (by simp [Token.elementName?, ht])] at h
    rw [fold_cons, Node.fold, pure_bind, ih h, map_pure, visibleText_cons_of_text ht]
    rfl
  | @selfClosing t name ts ns ht _ ih =>
    rw [elementNames_cons_of_some (Token.elementName?_of_selfClosing ht)] at h
    have hrest : Transparent tag? (elementNames ts) := h.mono fun _ => List.mem_cons_of_mem name
    rw [fold_cons, h.fold_element List.mem_cons_self, fold_nil, pure_bind, ih hrest, map_pure,
      visibleText_cons_of_ne (by simp [ht]), String.empty_append]
  | @element o c name ts us children ns ho hc _ _ ihts ihus =>
    rw [elementNames_cons_of_some (Token.elementName?_of_opening ho), elementNames_append,
      elementNames_cons_of_none (by simp [Token.elementName?, hc])] at h
    have hts : Transparent tag? (elementNames ts) :=
      h.mono fun _ hmem => List.mem_cons_of_mem name (List.mem_append_left _ hmem)
    have hus : Transparent tag? (elementNames us) :=
      h.mono fun _ hmem => List.mem_cons_of_mem name (List.mem_append_right _ hmem)
    rw [fold_cons, h.fold_element List.mem_cons_self, ihts hts, pure_bind, ihus hus, map_pure,
      visibleText_cons_of_ne (by simp [ho]), visibleText_append,
      visibleText_cons_of_ne (by simp [hc])]

/-- However the tags of a text nest, it shows its runs of text. -/
theorem Transparent.render_parse {source : String}
    (h : Transparent tag? (elementNames (scan source))) :
    render tag? (parse source) = pure (visibleText (scan source)) := by
  have hnodes := denotes_mended (scan source)
  rw [← elementNames_mended []] at h
  rw [render_eq_fold, ← visibleText_mended []]
  exact hnodes.fold_eq h

omit [LawfulMonad m] in
theorem transparent_empty (names : List String) :
    Transparent (Table.empty : Table (String → m String)).get? names := by
  intro name f hf
  cases hf

end

/-- A text that is rendered without transforms. -/
def flatten (source : String) : String :=
  Id.run (render (Table.empty : Table (String → Id String)).get? (parse source))

theorem flatten_eq (source : String) : flatten source = visibleText (scan source) :=
  (transparent_empty (m := Id) (elementNames (scan source))).render_parse

end Phrasebook.Markup
