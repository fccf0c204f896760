import Phrasebook.Markup.NodeJson
import Phrasebook.Proofs.Json.Compact
import Phrasebook.Proofs.Markup.Levels

/-!
# Forests read back from JSON

The JSON of a forest gives the forest back unless it is nested too deeply for the reader, and then
the text counts as malformed (`read_forest`).  Each element is an object with an array inside, even
if it has no children, so what counts is how many elements are around a node
(`depth_le_iff_levels`).  For the forest of a text this can be told from the tokens, by the elements
that are open at each of them (`levels_parse`).
-/

namespace Phrasebook.Markup

open Json (Value)

/-! ### The JSON of a node describes it -/

namespace Node

mutual

theorem textual_toJson (n : Node) : n.toJson.Textual := by
  match n with
  | .text value =>
    rw [toJson]
    exact .object (by simp [Value.Textual.string])
  | .element name children =>
    have hchildren : (Value.array (listToJson children)).Textual :=
      .array (textual_listToJson children)
    rw [toJson]
    exact .object (by simp [Value.Textual.string, hchildren])

theorem textual_listToJson (ns : List Node) : ∀ v ∈ listToJson ns, v.Textual := by
  match ns with
  | [] => exact fun v hv => absurd hv List.not_mem_nil
  | n :: ns =>
    rw [listToJson]
    exact List.forall_mem_cons.2 ⟨textual_toJson n, textual_listToJson ns⟩

end

mutual

theorem ofJson_toJson (n : Node) : ofJson n.toJson = .ok n := by
  match n with
  | .text value => rfl
  | .element name children =>
    rw [toJson, ofJson]
    simp only [fieldsOfJson, listOfJson_listToJson children]
    rfl

theorem listOfJson_listToJson (ns : List Node) : listOfJson (listToJson ns) = .ok ns := by
  match ns with
  | [] => rfl
  | n :: ns =>
    rw [listToJson, listOfJson, ofJson_toJson n, listOfJson_listToJson ns]
    rfl

end

/-! ### The outermost nodes -/

theorem depth_toJson_text (value : String) : (text value).toJson.depth = 1 := by
  simp [toJson, Value.depth, Value.membersDepth]

theorem depth_toJson_element (name : String) (children : List Node) :
    (element name children).toJson.depth = (Value.array (listToJson children)).depth + 1 := by
  simp [toJson, Value.depth, Value.membersDepth]

/-- The members of an outermost object are read one after the other. -/
theorem read_object (ms : List (String × Value)) (limit : Nat) :
    read (limit + 1) (Value.object ms).draft = (do
      let (kind?, members) ←
        ms.foldlM (fun state m => readMembers limit state m.1 m.2.draft) (none, [])
      match kind? with
      | some kind => (fieldsOfJson members).node kind
      | none => .error .mismatch) := by
  rw [← Value.foldMembers_draft (readMembers limit) (none, []) ms limit, bind_assoc]
  rfl

section
variable {limit : Nat} {kind : Kind} {name key : String} {v : Value}
  {state : Option Kind × List (String × Value)}

theorem readMembers_type (h : Kind.ofName name = .ok kind) :
    readMembers limit (none, []) "type" (Value.string name).draft = pure (some kind, []) := by
  rw [readMembers, if_pos rfl]
  show (Kind.ofName name >>= fun kind => .ok (some kind, [])) = _
  rw [h]
  rfl

theorem readMembers_of_ne (h : key ≠ "type") :
    readMembers limit state key v.draft = (do
      let v ← v.draft.read limit
      return (state.1, state.2 ++ [(key, v)])) := by
  rw [readMembers, if_neg h]

end

theorem read_toJson_text (value : String) (limit : Nat) :
    read (limit + 1) (text value).toJson.draft = .ok (text value) := by
  rw [toJson, read_object, List.foldlM_cons, readMembers_type rfl]
  rfl

/-- Only the children of an outermost element can be too deep. -/
theorem read_toJson_element (name : String) (children : List Node) (limit : Nat) :
    read (limit + 1) (element name children).toJson.draft = (do
      let v ← (Value.array (listToJson children)).draft.read limit
      (fieldsOfJson [("name", .string name), ("children", v)]).node .element) := by
  have hkind : Kind.ofName "el" = .ok .element := rfl
  have hname : (Value.string name).draft.read limit = pure (.string name) := rfl
  rw [toJson, read_object]
  simp only [List.foldlM_cons, List.foldlM_nil, readMembers_type hkind,
    readMembers_of_ne (show "name" ≠ "type" by decide), hname,
    readMembers_of_ne (show "children" ≠ "type" by decide), pure_bind, bind_assoc]
  rfl

/-- A node is read back if it is not nested too deeply. -/
theorem read_toJson (n : Node) {limit : Nat} (h : n.toJson.depth ≤ limit + 1) :
    read (limit + 1) n.toJson.draft = .ok n := by
  cases n with
  | text value => exact read_toJson_text value limit
  | element name children =>
    rw [depth_toJson_element] at h
    rw [read_toJson_element, Value.read_draft _ (Nat.le_of_succ_le_succ h)]
    show (fieldsOfJson [("name", .string name), ("children", .array (listToJson children))]).node
      .element = _
    simp only [fieldsOfJson, listOfJson_listToJson]
    rfl

theorem read_toJson_of_lt (n : Node) {limit : Nat} (h : limit + 1 < n.toJson.depth) :
    read (limit + 1) n.toJson.draft = .error .malformed := by
  cases n with
  | text value =>
    rw [depth_toJson_text] at h
    omega
  | element name children =>
    rw [depth_toJson_element] at h
    rw [read_toJson_element, Value.read_draft_of_lt _ (Nat.lt_of_succ_lt_succ h)]
    rfl

theorem mapM_read_listToJson (ns : List Node) {limit : Nat}
    (h : Value.itemsDepth (listToJson ns) ≤ limit + 1) :
    (Value.itemDrafts (listToJson ns)).mapM (read (limit + 1)) = .ok ns := by
  induction ns with
  | nil => rfl
  | cons n ns ih =>
    rw [listToJson, Value.itemsDepth, Nat.max_le] at h
    rw [listToJson, Value.itemDrafts, List.mapM_cons, read_toJson n h.1, ih h.2]
    rfl

theorem mapM_read_listToJson_of_lt (ns : List Node) {limit : Nat}
    (h : limit + 1 < Value.itemsDepth (listToJson ns)) :
    (Value.itemDrafts (listToJson ns)).mapM (read (limit + 1)) = .error .malformed := by
  induction ns with
  | nil => exact absurd h (Nat.not_lt_zero _)
  | cons n ns ih =>
    rw [listToJson, Value.itemsDepth] at h
    rw [listToJson, Value.itemDrafts, List.mapM_cons]
    by_cases hn : n.toJson.depth ≤ limit + 1
    · rw [read_toJson n hn, ih (by omega)]
      rfl
    · rw [read_toJson_of_lt n (by omega)]
      rfl

end Node

/-! ### Levels and nesting -/

mutual

/-- Each element around a node costs two levels of nesting: its object and the array of its
children. -/
theorem Node.depth_le_iff_levels (n : Node) {d j : Nat} (h : d ≤ j) :
    n.toJson.depth + 2 * d ≤ 2 * j ↔ ∀ k ∈ n.levels d, k < j := by
  match n with
  | .text value =>
    rw [Node.depth_toJson_text, Node.levels, List.forall_mem_singleton]
    omega
  | .element name children =>
    rw [Node.depth_toJson_element, Value.depth, Node.levels, List.forall_mem_cons]
    by_cases hd : d < j
    · rw [← itemsDepth_le_iff_levels children (Nat.succ_le_of_lt hd)]
      omega
    · exact iff_of_false (by omega) fun hlevels => hd hlevels.1

theorem itemsDepth_le_iff_levels (ns : List Node) {d j : Nat} (h : d ≤ j) :
    Value.itemsDepth (Node.listToJson ns) + 2 * d ≤ 2 * j ↔ ∀ k ∈ levels d ns, k < j := by
  match ns with
  | [] =>
    have hd : 0 + 2 * d ≤ 2 * j := by omega
    simpa [Node.listToJson, Value.itemsDepth, levels] using hd
  | n :: ns =>
    rw [Node.listToJson, Value.itemsDepth, levels, List.forall_mem_append,
      ← Node.depth_le_iff_levels n h, ← itemsDepth_le_iff_levels ns h]
    omega

end

/-- A forest is nested at most 127 times if at most 62 elements are around each node. -/
theorem depth_le_iff_levels (nodes : List Node) :
    (Value.array (Node.listToJson nodes)).depth ≤ 127 ↔ ∀ k ∈ levels 0 nodes, k ≤ 62 := by
  have hlevels : Value.itemsDepth (Node.listToJson nodes) + 2 * 0 ≤ 2 * 63 ↔
      ∀ k ∈ levels 0 nodes, k ≤ 62 := by
    simpa only [Nat.lt_succ_iff] using itemsDepth_le_iff_levels nodes (Nat.zero_le 63)
  rw [Value.depth, ← hlevels]
  omega

/-! ### Forests -/

theorem read_forest (nodes : List Node) :
    forestOfJson (forestToJson nodes) =
      if (Value.array (Node.listToJson nodes)).depth ≤ 127 then .ok nodes
      else .error .malformed := by
  have htextual : (Value.array (Node.listToJson nodes)).Textual :=
    .array (Node.textual_listToJson nodes)
  rw [forestOfJson, forestToJson, Value.readText_text htextual, Json.maxDepth, Value.asArray_draft,
    Value.depth]
  show (do
    let nodes ← (Value.itemDrafts (Node.listToJson nodes)).mapM (Node.read (125 + 1))
    Json.checkCut none
    return nodes) = _
  split
  next h =>
    rw [Node.mapM_read_listToJson nodes (by omega)]
    rfl
  next h =>
    rw [Node.mapM_read_listToJson_of_lt nodes (by omega)]
    rfl

/-- A forest is read back from its JSON if this nests at most 127 arrays and objects, and else its
JSON is malformed.  The forest of a text is read back just if nowhere in the text, apart from
closing tags, more than 62 elements are open. -/
theorem forestOfJson_forestToJson :
    (∀ nodes : List Node, forestOfJson (forestToJson nodes) =
      if (Value.array (Node.listToJson nodes)).depth ≤ 127 then .ok nodes
      else .error .malformed) ∧
    ∀ source : String, forestOfJson (forestToJson (parse source)) = .ok (parse source) ↔
      ∀ before t after, scan source = before ++ t :: after → t.isClosing = false →
        (before.foldl openAfter []).length ≤ 62 := by
  refine ⟨read_forest, fun source => ?_⟩
  have hread : forestOfJson (forestToJson (parse source)) = .ok (parse source) ↔
      (Value.array (Node.listToJson (parse source))).depth ≤ 127 := by
    rw [read_forest]
    split <;> simp [*]
  rw [hread, depth_le_iff_levels, levels_parse]
  constructor
  · intro h before t after hsplit ht
    exact h _ (mem_tokenLevels_iff.2 ⟨before, t, after, hsplit, ht, rfl⟩)
  · intro h k hk
    obtain ⟨before, t, after, hsplit, ht, rfl⟩ := mem_tokenLevels_iff.1 hk
    exact h before t after hsplit ht

end Phrasebook.Markup
