import SolidityTree.Proofs.Schemas

/-!
# Records in records

Where in a modern record the records stand that are converted for it: in the fields of its kind, by
themselves or in arrays, and for a using directive inside the entries of its function list
(`Modern.parts`).  These are all records that its draft converts, in order
(`Modern.converts_payload`).  The Yul code that inline assembly embeds is converted later on
(`Modern.Holds`).

No two of these places lie inside each other, so the records below a place are met through the
record that stands there (`Modern.MeetsAt.of_append`).
-/

namespace SolidityTree

/-! ### Paths -/

namespace Json

/-- One part of a path: a field of an object, or an item of an array. -/
inductive Accessor where
  | key (name : String)
  | index (i : Nat)
  deriving DecidableEq, Repr

/-- The field, or the item. -/
def access? (json : Json) : Accessor → Option Json
  | .key name => json.get? name
  | .index i => json.items?.bind (·[i]?)

/-- The value that a path leads to. -/
def at? (json : Json) : List Accessor → Option Json
  | [] => some json
  | accessor :: rest => (json.access? accessor).bind (·.at? rest)

variable {a b : Json} {path rest : List Accessor}

@[simp] theorem at?_nil : a.at? [] = some a := rfl

@[simp] theorem at?_cons {accessor : Accessor} :
    a.at? (accessor :: rest) = (a.access? accessor).bind (·.at? rest) := rfl

theorem at?_append : a.at? (path ++ rest) = (a.at? path).bind (·.at? rest) := by
  induction path generalizing a with
  | nil => rfl
  | cons accessor path ih =>
    rw [List.cons_append, at?_cons, at?_cons, Option.bind_assoc]
    exact Option.bind_congr fun b _ => ih

/-- Where the path first leads, the two values have the same part. -/
def Shares (a b : Json) : List Accessor → Prop
  | [] => a = b
  | accessor :: _ => ∃ part, a.access? accessor = some part ∧ b.access? accessor = some part

theorem Shares.at?_eq (h : a.Shares b path) : a.at? path = b.at? path := by
  cases path with
  | nil => exact congrArg some h
  | cons accessor rest =>
    obtain ⟨part, ha, hb⟩ := h
    rw [at?_cons, at?_cons, ha, hb]

/-- A part of a value, with the path to it. -/
structure Part where
  path : List Accessor
  value : Json

/-- A part of a part. -/
def Part.within (outer inner : Part) : Part := ⟨outer.path ++ inner.path, inner.value⟩

end Json

/-! ### Records that a draft converts -/

namespace Draft

variable {α β : Type} {d : Draft α} {next : α → Draft β} {rs rs' : List Json}

/-- The draft converts the records in order, if it finishes. -/
def Converts (d : Draft α) (rs : List Json) : Prop :=
  ∀ trace, wp d (fun trace' _ => trace'.map Prod.fst = trace.map Prod.fst ++ rs) trace

theorem converts_pure (a : α) : Converts (pure a) [] := fun trace =>
  wp_pure (List.append_nil (trace.map Prod.fst)).symm

theorem Converts.bind (h : Converts d rs) (hnext : ∀ a, Converts (next a) rs') :
    Converts (d >>= next) (rs ++ rs') := fun trace => by
  refine wp_bind ((h trace).mono fun trace' a htrace' => (hnext a trace').mono fun _ _ hall => ?_)
  rw [hall, htrace', List.append_assoc]

theorem Converts.bind_pure {f : α → β} (h : Converts d rs) :
    Converts (d >>= fun a => pure (f a)) rs := by
  have hbind := h.bind fun a => converts_pure (f a)
  rwa [List.append_nil] at hbind

/-- What reads fields only converts nothing. -/
theorem converts_lift {e : Except Fault α} (h : ∀ a, e = .ok a → Converts (next a) rs) :
    Converts (liftM e >>= next) rs := fun trace =>
  wp_bind (wp_lift_of_ok fun a ha => h a ha trace)

theorem converts_one (r : Json) : Converts (one r) [r] := fun _ =>
  wp_one fun _ => List.map_append

theorem converts_optional (r? : Option Json) : Converts (optional r?) (present r?).toList :=
  fun trace => wp_optional fun _ new hnew _ => by rw [List.map_append, hnew]

theorem converts_many (r? : Option Json) :
    Converts (many r?) ((r?.bind Json.items?).getD []) := fun trace => by
  refine wp_array (fun hnone => ?_) fun rs hrs => wp_all fun new hnew => ?_
  · rw [hnone, Option.getD_none, List.append_nil]
  · rw [hrs, Option.getD_some, List.map_append, hnew]

theorem converts_sparse (r? : Option Json) :
    Converts (sparse r?) (((r?.bind Json.items?).getD []).filter fun r => !r.isNull) :=
  fun trace => wp_sparse fun _ new hnew _ => by rw [List.map_append, hnew]

end Draft

/-! ### Parts of a modern record -/

namespace Modern

open Draft Record Json

variable {r s t : Json} {kind : Kind} {shape : Shape} {key : String} {p q : Part}

/-- The value of a field that is there. -/
def fieldPart (r : Json) (key : String) : List Part :=
  (field? r key).toList.map fun value => ⟨[.key key], value⟩

/-- The items of an array in a field. -/
def itemParts (r : Json) (key : String) : List Part :=
  (items r key).zipIdx.map fun (item, i) => ⟨[.key key, .index i], item⟩

/-- The records in a field of the given shape.  A text may stand for documentation or a type. -/
def fieldParts (r : Json) : Shape × String → List Part
  | (.one, key) | (.optional, key) => fieldPart r key
  | (.many, key) => itemParts r key
  | (.sparse, key) => (itemParts r key).filter fun p => !p.value.isNull
  | (.documentation, key) | (.operand, key) =>
    (fieldPart r key).filter fun p => p.value.string?.isNone

/-- The function that an entry of a function list wraps. -/
def entryPart (entry : Json) : List Part :=
  if (field? entry "function").isSome then fieldPart entry "function"
  else fieldPart entry "definition"

/-- The functions in the function list of a using directive. -/
def entryParts (r : Json) : List Part :=
  (itemParts r "functionList").flatMap fun entry => (entryPart entry.value).map entry.within

/-- The fields of a kind that are read for records, in the order in which they are read. -/
def fields : Kind → List (Shape × String)
  | .contractDefinition =>
    [(.documentation, "documentation"), (.many, "baseContracts"), (.many, "nodes")]
  | .usingForDirective => [(.optional, "libraryName"), (.optional, "typeName")]
  | .inlineAssembly => [(.documentation, "documentation")]
  | .variableDeclarationStatement =>
    [(.documentation, "documentation"), (.sparse, "declarations"), (.optional, "initialValue")]
  | .yulCase => [(.operand, "value"), (.one, "body")]
  | kind => kind.layout.map fun field => (field.shape, field.key)

/-- The records that are converted for a record of the given kind, in order. -/
def parts (kind : Kind) (r : Json) : List Part :=
  (if kind = .usingForDirective then entryParts r else []) ++ (fields kind).flatMap (fieldParts r)

/-! ### Their order -/

theorem map_value_fieldPart : (fieldPart r key).map Part.value = (field? r key).toList := by
  rw [fieldPart, List.map_map]
  exact List.map_id _

theorem map_value_itemParts : (itemParts r key).map Part.value = items r key := by
  rw [itemParts, List.map_map]
  exact List.zipIdx_map_fst 0 (items r key)

theorem map_value_filter (test : Json → Bool) (ps : List Part) :
    (ps.filter fun p => test p.value).map Part.value = (ps.map Part.value).filter test := by
  rw [List.filter_map]
  rfl

theorem converts_one (r : Json) (key : String) :
    Converts (one r key) ((fieldPart r key).map Part.value) := by
  have hone : ∀ value, required r key = .ok value →
      Converts (Draft.one value) ((fieldPart r key).map Part.value) := fun value hvalue => by
    rw [required] at hvalue
    split at hvalue
    · next found hfound =>
      cases hvalue
      rw [map_value_fieldPart, hfound]
      exact Draft.converts_one value
    · contradiction
  exact converts_lift hone

theorem present_field? : present (field? r key) = field? r key := by
  rw [present, field?, Option.filter_filter]
  simp

theorem converts_optional (r : Json) (key : String) :
    Converts (optional r key) ((fieldPart r key).map Part.value) := by
  rw [map_value_fieldPart, ← present_field?]
  exact Draft.converts_optional _

theorem converts_many (r : Json) (key : String) :
    Converts (many r key) ((itemParts r key).map Part.value) := by
  rw [map_value_itemParts]
  exact Draft.converts_many _

theorem converts_sparse (r : Json) (key : String) :
    Converts (Draft.sparse (field? r key)) ((fieldParts r (.sparse, key)).map Part.value) := by
  rw [fieldParts, map_value_filter fun value => !value.isNull, map_value_itemParts]
  exact Draft.converts_sparse _

/-- A field that may hold a text has a record where it holds something else. -/
theorem map_value_textless (htext : ∀ s, field? r key ≠ some (.string s)) :
    (fieldParts r (.operand, key)).map Part.value = (field? r key).toList := by
  rw [fieldParts, map_value_filter fun value => value.string?.isNone, map_value_fieldPart]
  refine List.filter_eq_self.2 fun value hvalue => ?_
  rw [Option.mem_toList] at hvalue
  cases value with
  | string s => exact absurd hvalue (htext s)
  | _ => rfl

theorem map_value_text {s : String} (htext : field? r key = some (.string s)) :
    (fieldParts r (.operand, key)).map Part.value = [] := by
  rw [fieldParts, map_value_filter fun value => value.string?.isNone, map_value_fieldPart, htext]
  rfl

theorem converts_documentation (r : Json) : Converts (documentation r)
    ((fieldParts r (.documentation, "documentation")).map Part.value) := by
  show Converts _ ((fieldParts r (.operand, "documentation")).map Part.value)
  unfold documentation
  split
  · next hnone =>
    rw [map_value_textless (by rw [hnone]; nofun), hnone]
    exact converts_pure _
  · next s hs =>
    rw [map_value_text hs]
    exact converts_pure _
  · next doc htext hdoc =>
    rw [map_value_textless fun s hs => htext s (Option.some.inj (hdoc.symm.trans hs)), hdoc]
    exact (Draft.converts_one doc).bind_pure

theorem converts_operand (r : Json) (key : String) :
    Converts (operand r key) ((fieldParts r (.operand, key)).map Part.value) := by
  refine converts_lift fun value hvalue => ?_
  rw [required] at hvalue
  split at hvalue
  · next found hfound =>
    cases hvalue
    split
    · rw [map_value_text hfound]
      exact converts_pure _
    · next htext =>
      rw [map_value_textless fun s hs => htext s (Option.some.inj (hfound.symm.trans hs)), hfound]
      exact (Draft.converts_one value).bind_pure
  · contradiction

theorem converts_slot (r : Json) {field : Field}
    (hkey : field.shape = .documentation → field.key = "documentation") :
    Converts (slot r field) ((fieldParts r (field.shape, field.key)).map Part.value) := by
  obtain ⟨shape, name, key⟩ := field
  cases shape with
  | one => exact (converts_one r key).bind_pure
  | optional => exact (converts_optional r key).bind_pure
  | many => exact (converts_many r key).bind_pure
  | sparse => exact (converts_sparse r key).bind_pure
  | documentation =>
    obtain rfl : key = "documentation" := hkey rfl
    exact (converts_documentation r).bind_pure
  | operand => exact (converts_operand r key).bind_pure

theorem converts_slots (r : Json) {layout : List Field}
    (hkeys : ∀ field ∈ layout, field.shape = .documentation → field.key = "documentation") :
    Converts (slots r layout) (((layout.map fun field => (field.shape, field.key)).flatMap
      (fieldParts r)).map Part.value) := by
  induction layout with
  | nil => exact converts_pure _
  | cons field rest ih =>
    obtain ⟨hkey, hkeys⟩ := List.forall_mem_cons.1 hkeys
    have hslots := (converts_slot r hkey).bind fun s => (ih hkeys).bind_pure (f := fun ss =>
      (⟨s.1 :: ss.1, congrArg₂ List.cons s.2 ss.2⟩ :
        { slots : List Slot // Slots.shapes slots = (field :: rest).map Field.shape }))
    rw [← List.map_append] at hslots
    exact hslots

theorem documentation_key (kind : Kind) :
    ∀ field ∈ kind.layout, field.shape = .documentation → field.key = "documentation" := by
  cases kind <;> decide

theorem converts_regular {kind : Kind} (r : Json)
    (hfields : fields kind = kind.layout.map fun field => (field.shape, field.key)) :
    Converts (regular kind r) (((fields kind).flatMap (fieldParts r)).map Part.value) := by
  refine converts_lift fun attributes hattributes => ?_
  rw [hfields, ← kind_attributes hattributes]
  exact (converts_slots r (documentation_key attributes.kind)).bind_pure

/-! ### Payloads -/

theorem converts_contractDefinition (r : Json) : Converts (contractDefinition r)
    ((parts .contractDefinition r).map Part.value) := by
  have hparts : (parts .contractDefinition r).map Part.value =
      (fieldParts r (.documentation, "documentation")).map Part.value ++
        ((itemParts r "baseContracts").map Part.value ++
          ((itemParts r "nodes").map Part.value ++ [])) := by
    simp [parts, fields, fieldParts]
  rw [hparts]
  exact (converts_documentation r).bind fun _ => (converts_many r _).bind fun _ =>
    (converts_many r _).bind fun _ => converts_lift fun _ _ => converts_pure _

theorem converts_usingEntry (entry : Json) :
    Converts (usingEntry entry) ((entryPart entry).map Part.value) := by
  unfold usingEntry entryPart
  split
  · next function hfunction =>
    rw [if_pos (by rw [hfunction]; rfl), map_value_fieldPart, hfunction]
    exact (Draft.converts_one function).bind_pure
  · next hnone =>
    rw [if_neg (by rw [hnone]; nofun)]
    have hlift : ∀ function, Converts (do
        let operator ← (requiredText entry "operator" : Except Fault String)
        return (function, some (OperatorBinding.mk function operator))) [] := fun function =>
      converts_lift fun operator _ => converts_pure _
    have hbind := (converts_one entry "definition").bind hlift
    rwa [List.append_nil] at hbind

theorem converts_usingEntries (entries : List Json) :
    Converts (usingEntries entries)
      (entries.flatMap fun entry => (entryPart entry).map Part.value) := by
  induction entries with
  | nil => exact converts_pure _
  | cons entry rest ih => exact (converts_usingEntry entry).bind fun _ => ih.bind_pure

theorem map_value_entryParts : (entryParts r).map Part.value =
    (items r "functionList").flatMap fun entry => (entryPart entry).map Part.value := by
  rw [entryParts, List.map_flatMap, ← map_value_itemParts, List.flatMap_map]
  exact List.flatMap_congr fun entry _ => by rw [List.map_map]; rfl

theorem converts_usingForDirective (r : Json) : Converts (usingForDirective r)
    ((parts .usingForDirective r).map Part.value) := by
  have hparts : (parts .usingForDirective r).map Part.value =
      (entryParts r).map Part.value ++ ((fieldPart r "libraryName").map Part.value ++
        (fieldPart r "typeName").map Part.value) := by
    simp [parts, fields, fieldParts]
  rw [hparts, map_value_entryParts]
  exact (converts_usingEntries _).bind fun _ => (converts_optional r _).bind fun _ =>
    (converts_optional r _).bind_pure

theorem converts_inlineAssembly (r : Json) : Converts (inlineAssembly r)
    ((parts .inlineAssembly r).map Part.value) := by
  have hparts : (parts .inlineAssembly r).map Part.value =
      (fieldParts r (.documentation, "documentation")).map Part.value := by
    simp [parts, fields]
  rw [hparts]
  exact converts_lift fun _ _ => (converts_documentation r).bind_pure

theorem converts_variableDeclarationStatement (r : Json) : Converts (variableDeclarationStatement r)
    ((parts .variableDeclarationStatement r).map Part.value) := by
  have hparts : (parts .variableDeclarationStatement r).map Part.value =
      (fieldParts r (.documentation, "documentation")).map Part.value ++
        ((fieldParts r (.sparse, "declarations")).map Part.value ++
          (fieldPart r "initialValue").map Part.value) := by
    simp [parts, fields, fieldParts]
  rw [hparts]
  exact (converts_documentation r).bind fun _ => (converts_sparse r _).bind fun _ =>
    (converts_optional r _).bind_pure

theorem converts_yulCase (r : Json) : Converts (yulCase r)
    ((parts .yulCase r).map Part.value) := by
  have hparts : (parts .yulCase r).map Part.value =
      (fieldParts r (.operand, "value")).map Part.value ++
        (fieldPart r "body").map Part.value := by
    simp [parts, fields, fieldParts]
  have hbody : ∀ value? : Option NodeId, Converts (do
      let body ← one r "body"
      return Payload.yulCase value? body) ((fieldPart r "body").map Part.value) := fun value? =>
    (converts_one r "body").bind_pure
  rw [hparts]
  unfold yulCase
  split
  · next hnone =>
    rw [map_value_textless (by rw [hnone]; nofun), hnone]
    exact (converts_pure none).bind hbody
  · next s hs =>
    rw [map_value_text hs]
    exact (converts_pure none).bind hbody
  · next value htext hvalue =>
    rw [map_value_textless fun s hs => htext s (Option.some.inj (hvalue.symm.trans hs)), hvalue]
    exact (Draft.converts_one value).bind_pure.bind hbody

/-- **The records that are converted for a record**, in order. -/
theorem converts_payload (kind : Kind) (r : Json) :
    Converts (payload kind r) ((parts kind r).map Part.value) := by
  unfold payload
  split
  · exact converts_contractDefinition r
  · exact converts_usingForDirective r
  · exact converts_inlineAssembly r
  · exact converts_variableDeclarationStatement r
  · exact converts_yulCase r
  · next hcontract husing hassembly hdeclaration hcase =>
    rw [parts, if_neg husing, List.nil_append]
    refine converts_regular r ?_
    unfold fields
    split <;> first | contradiction | rfl

/-! ### Where they stand -/

/-- How many steps lead to the records in a field of the given shape. -/
def depth : Shape → Nat
  | .many | .sparse => 2
  | .one | .optional | .documentation | .operand => 1

theorem mem_fieldPart (h : p ∈ fieldPart r key) :
    r.get? key = some p.value ∧ p.path = [.key key] := by
  obtain ⟨value, hvalue, rfl⟩ := List.mem_map.1 h
  exact ⟨(Option.filter_eq_some_iff.1 (Option.mem_toList.1 hvalue)).1, rfl⟩

theorem mem_itemParts (h : p ∈ itemParts r key) : ∃ items i, r.get? key = some (.array items) ∧
    items[i]? = some p.value ∧ p.path = [.key key, .index i] := by
  obtain ⟨⟨value, i⟩, hvalue, rfl⟩ := List.mem_map.1 h
  have hvalue : (items r key)[i]? = some value := List.mem_zipIdx_iff_getElem?.1 hvalue
  cases hfield : (field? r key).bind Json.items? with
  | none =>
    rw [items, hfield] at hvalue
    contradiction
  | some items =>
    obtain ⟨array, harray, hitems⟩ := Option.bind_eq_some_iff.1 hfield
    rw [Record.items, hfield, Option.getD_some] at hvalue
    cases array with
    | array found =>
      cases hitems
      exact ⟨items, i, (Option.filter_eq_some_iff.1 harray).1, hvalue, rfl⟩
    | _ => contradiction

theorem depth_of_mem_fieldParts (h : p ∈ fieldParts r (shape, key)) :
    depth shape = 1 ∧ p ∈ fieldPart r key ∨ depth shape = 2 ∧ p ∈ itemParts r key := by
  cases shape with
  | one => exact .inl ⟨rfl, h⟩
  | optional => exact .inl ⟨rfl, h⟩
  | many => exact .inr ⟨rfl, h⟩
  | sparse => exact .inr ⟨rfl, List.mem_of_mem_filter h⟩
  | documentation => exact .inl ⟨rfl, List.mem_of_mem_filter h⟩
  | operand => exact .inl ⟨rfl, List.mem_of_mem_filter h⟩

/-- A record in a function list is a field of an entry. -/
theorem mem_entryParts (h : p ∈ entryParts r) : ∃ entries i entry name,
    r.get? "functionList" = some (.array entries) ∧ entries[i]? = some entry ∧
      entry.get? name = some p.value ∧ p.path = [.key "functionList", .index i, .key name] := by
  obtain ⟨outer, houter, hp⟩ := List.mem_flatMap.1 h
  obtain ⟨inner, hinner, rfl⟩ := List.mem_map.1 hp
  obtain ⟨entries, i, hentries, hentry, hpath⟩ := mem_itemParts houter
  obtain ⟨name, hname⟩ : ∃ name, inner ∈ fieldPart outer.value name := by
    rw [entryPart] at hinner
    split at hinner
    · exact ⟨"function", hinner⟩
    · exact ⟨"definition", hinner⟩
  obtain ⟨hget, hinner⟩ := mem_fieldPart hname
  refine ⟨entries, i, outer.value, name, hentries, hentry, hget, ?_⟩
  rw [Part.within, hpath, hinner]
  rfl

theorem mem_parts (h : p ∈ parts kind r) : kind = .usingForDirective ∧ p ∈ entryParts r ∨
    ∃ shape key, (shape, key) ∈ fields kind ∧ p ∈ fieldParts r (shape, key) := by
  refine (List.mem_append.1 h).imp (fun hentry => ?_) fun hfield => ?_
  · split at hentry
    · next husing => exact ⟨husing, hentry⟩
    · contradiction
  · obtain ⟨⟨shape, key⟩, hfield, hp⟩ := List.mem_flatMap.1 hfield
    exact ⟨shape, key, hfield, hp⟩

theorem at?_of_mem_parts (h : p ∈ parts kind r) : r.at? p.path = some p.value := by
  rcases mem_parts h with ⟨-, hentry⟩ | ⟨shape, key, -, hfield⟩
  · obtain ⟨entries, i, entry, name, hentries, hentry, hvalue, hpath⟩ := mem_entryParts hentry
    simp [hpath, access?, hentries, Json.items?, hentry, hvalue]
  · rcases depth_of_mem_fieldParts hfield with ⟨-, hfield⟩ | ⟨-, hitem⟩
    · obtain ⟨hget, hpath⟩ := mem_fieldPart hfield
      simp [hpath, access?, hget]
    · obtain ⟨items, i, hget, hvalue, hpath⟩ := mem_itemParts hitem
      simp [hpath, access?, hget, Json.items?, hvalue]

theorem head?_of_mem_fieldParts (h : p ∈ fieldParts r (shape, key)) :
    p.path.head? = some (.key key) ∧ p.path.length = depth shape := by
  rcases depth_of_mem_fieldParts h with ⟨hdepth, hfield⟩ | ⟨hdepth, hitem⟩
  · rw [(mem_fieldPart hfield).2, hdepth]
    exact ⟨rfl, rfl⟩
  · obtain ⟨_, _, -, -, hpath⟩ := mem_itemParts hitem
    rw [hpath, hdepth]
    exact ⟨rfl, rfl⟩

theorem head?_of_mem_entryParts (h : p ∈ entryParts r) :
    p.path.head? = some (.key "functionList") ∧ p.path.length = 3 := by
  obtain ⟨_, _, _, _, -, -, -, hpath⟩ := mem_entryParts h
  rw [hpath]
  exact ⟨rfl, rfl⟩

theorem nodup_fieldKeys (kind : Kind) : ((fields kind).map Prod.snd).Nodup := by
  cases kind <;> decide

theorem functionList_ne_of_mem_fields (h : (shape, key) ∈ fields .usingForDirective) :
    key ≠ "functionList" := by
  have hall : ∀ field ∈ fields .usingForDirective, field.2 ≠ "functionList" := by decide
  exact hall _ h

theorem tree_ne_of_mem_fields (h : (shape, key) ∈ fields .inlineAssembly) : key ≠ "AST" := by
  have hall : ∀ field ∈ fields .inlineAssembly, field.2 ≠ "AST" := by decide
  exact hall _ h

/-- Records in the same field stand equally deep in it. -/
theorem length_path_eq (hp : p ∈ parts kind r) (hq : q ∈ parts kind r)
    (h : p.path.head? = q.path.head?) : p.path.length = q.path.length := by
  rcases mem_parts hp with ⟨husing, hp⟩ | ⟨shape, key, hfield, hp⟩ <;>
    rcases mem_parts hq with ⟨husing', hq⟩ | ⟨shape', key', hfield', hq⟩
  · rw [(head?_of_mem_entryParts hp).2, (head?_of_mem_entryParts hq).2]
  · rw [(head?_of_mem_entryParts hp).1, (head?_of_mem_fieldParts hq).1] at h
    subst husing
    cases h
    exact absurd rfl (functionList_ne_of_mem_fields hfield')
  · rw [(head?_of_mem_fieldParts hp).1, (head?_of_mem_entryParts hq).1] at h
    subst husing'
    cases h
    exact absurd rfl (functionList_ne_of_mem_fields hfield)
  · rw [(head?_of_mem_fieldParts hp).1, (head?_of_mem_fieldParts hq).1] at h
    cases h
    have hsame := List.inj_on_of_nodup_map (nodup_fieldKeys kind) hfield hfield' rfl
    obtain rfl : shape = shape' := congrArg Prod.fst hsame
    rw [(head?_of_mem_fieldParts hp).2, (head?_of_mem_fieldParts hq).2]

/-! ### Records below a record -/

/-- A record of a node inside another one: one that is converted for it, or the tree of Yul code
that inline assembly embeds. -/
inductive Holds (r : Json) : List Accessor → Json → Prop
  | part {kind : Kind} {p : Part} (hkind : Schema.modern.kind? r = some kind)
      (hp : p ∈ parts kind r) (hvalue : (Schema.modern.kind? p.value).isSome) :
      Holds r p.path p.value
  | tree {t : Json} (hkind : Schema.modern.kind? r = some .inlineAssembly)
      (htree : r.get? "AST" = some t) (ht : (Schema.modern.kind? t).isSome) :
      Holds r [.key "AST"] t

namespace Holds

variable {path path' : List Accessor}

theorem at? (h : Holds r path s) : r.at? path = some s := by
  cases h with
  | part _ hp _ => exact at?_of_mem_parts hp
  | tree _ htree _ => simp [access?, htree]

theorem head?_ne_tree (hp : p ∈ parts .inlineAssembly r) : p.path.head? ≠ some (.key "AST") := by
  rcases mem_parts hp with ⟨husing, -⟩ | ⟨shape, key, hfield, hp⟩
  · contradiction
  · rw [(head?_of_mem_fieldParts hp).1]
    rintro ⟨⟩
    exact tree_ne_of_mem_fields hfield rfl

theorem length_path_eq (h : Holds r path s) (h' : Holds r path' t)
    (hhead : path.head? = path'.head?) : path.length = path'.length := by
  cases h with
  | part hkind hp _ =>
    cases h' with
    | part hkind' hp' _ =>
      obtain rfl := Option.some.inj (hkind.symm.trans hkind')
      exact Modern.length_path_eq hp hp' hhead
    | tree hkind' _ _ =>
      obtain rfl := Option.some.inj (hkind.symm.trans hkind')
      exact absurd hhead (head?_ne_tree hp)
  | tree hkind _ _ =>
    cases h' with
    | part hkind' hp' _ =>
      obtain rfl := Option.some.inj (hkind.symm.trans hkind')
      exact absurd hhead.symm (head?_ne_tree hp')
    | tree _ _ _ => rfl

theorem exists_cons (h : Holds r path s) : ∃ name rest, path = .key name :: rest := by
  cases h with
  | part _ hp _ =>
    rcases mem_parts hp with ⟨-, hp⟩ | ⟨shape, key, -, hp⟩
    · exact ⟨_, List.head?_eq_some_iff.1 (head?_of_mem_entryParts hp).1⟩
    · exact ⟨_, List.head?_eq_some_iff.1 (head?_of_mem_fieldParts hp).1⟩
  | tree _ _ _ => exact ⟨_, _, rfl⟩

/-- No two records in a record lie inside each other. -/
theorem eq_of_append_eq (h : Holds r path s) (h' : Holds r path' t) {rest rest' : List Accessor}
    (heq : path ++ rest = path' ++ rest') : path = path' ∧ s = t ∧ rest = rest' := by
  obtain ⟨name, inner, rfl⟩ := h.exists_cons
  obtain ⟨name', inner', rfl⟩ := h'.exists_cons
  have hhead : Accessor.key name = .key name' := (List.cons.inj heq).1
  have hlength := h.length_path_eq h' (by rw [List.head?_cons, List.head?_cons, hhead])
  obtain ⟨hpath, hrest⟩ := List.append_inj heq hlength
  refine ⟨hpath, ?_, hrest⟩
  have hat := h.at?
  rw [hpath, h'.at?] at hat
  exact (Option.some.inj hat).symm

end Holds

/-- The records of nodes at or below a record, each with the path to it. -/
inductive MeetsAt : Json → List Accessor → Json → Prop
  | self (r : Json) : MeetsAt r [] r
  | inner {r s t : Json} {path rest : List Accessor} (hs : Holds r path s) (ht : MeetsAt s rest t) :
      MeetsAt r (path ++ rest) t

namespace MeetsAt

variable {path rest : List Accessor}

theorem of_holds (h : Holds r path s) : MeetsAt r path s := by
  have hinner := inner h (.self s)
  rwa [List.append_nil] at hinner

theorem trans (hs : MeetsAt r path s) (ht : MeetsAt s rest t) : MeetsAt r (path ++ rest) t := by
  induction hs with
  | self r => exact ht
  | inner hs _ ih =>
    rw [List.append_assoc]
    exact inner hs (ih ht)

theorem at? (h : MeetsAt r path s) : r.at? path = some s := by
  induction h with
  | self r => rfl
  | inner hs _ ih => rw [at?_append, hs.at?, Option.bind_some, ih]

/-- What is met below the place of a record is met through that record. -/
theorem of_append (hs : MeetsAt r path s) (ht : MeetsAt r (path ++ rest) t) : MeetsAt s rest t := by
  -- on the way to the record, which both ways begin with
  induction hs with
  | self r => exact ht
  | @inner r s' s path rest' hs _ ih =>
    rw [List.append_assoc] at ht
    generalize hway : path ++ (rest' ++ rest) = way at ht
    cases ht with
    | self r =>
      obtain ⟨name, inner, rfl⟩ := hs.exists_cons
      contradiction
    | inner ht hbelow =>
      obtain ⟨-, rfl, rfl⟩ := hs.eq_of_append_eq ht hway
      exact ih hbelow

end MeetsAt

end Modern

end SolidityTree
